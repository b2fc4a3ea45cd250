import CompileCache.Source.Descent
import Mathlib.Logic.Relation

/-!
# Descent — what a way down meets

* `Leads`, `reaches_iff`: what paths reach is what they lead to, over any number of steps.
* `Descends`: a way down that comes to an end, step by step. **`descends_descend`**: there is one,
  and `descend` goes it.
* `closureFrom_append`, **`Descends.seen_eq`**: the paths seen in the end are the closure.
* **`Descends.mem_found`**: the names found are those of the paths that were not seen before. On a
  way below another one these may be fewer than all names that can be reached.
-/

namespace CompileCache.Source

/-- A way down that comes to an end. -/
inductive Descends (s : Source) (next own : String → String → List String) :
    KeySet → List String → Descent → Prop
  | done {seen : KeySet} : Descends s next own seen [] ⟨seen, .empty⟩
  | passed {seen : KeySet} {p : String} {rest : List String} {w : Descent} (hp : p ∈ seen)
      (hw : Descends s next own seen rest w) : Descends s next own seen (p :: rest) w
  | bare {seen : KeySet} {p : String} {rest : List String} {w : Descent} (hp : ¬p ∈ seen)
      (hc : s.content p = none) (hw : Descends s next own (seen.add p) rest w) :
      Descends s next own seen (p :: rest) w
  | read {seen : KeySet} {p content : String} {rest : List String} {below beside : Descent}
      (hp : ¬p ∈ seen) (hc : s.content p = some content)
      (hbelow : Descends s next own (seen.add p) (next p content) below)
      (hbeside : Descends s next own below.seen rest beside) :
      Descends s next own seen (p :: rest) (.join (own p content) below beside)

variable {s : Source} {next own : String → String → List String} {seen : KeySet}
  {paths : List String} {w : Descent}

/-! ## Steps -/

/-- The content of a path leads to another path. -/
def Leads (s : Source) (next : String → String → List String) (p q : String) : Prop :=
  ∃ content, s.content p = some content ∧ q ∈ next p content

theorem reaches_iff {p q : String} :
    Reaches s next p q ↔ Relation.ReflTransGen (s.Leads next) p q := by
  constructor
  · intro h
    induction h with
    | refl => exact .refl
    | step hc hq _ ih => exact .head ⟨_, hc, hq⟩ ih
  · intro h
    induction h with
    | refl => exact .refl p
    | tail _ hq ih =>
      obtain ⟨content, hc, hq⟩ := hq
      exact ih.trans (.step hc hq (.refl _))

/-! ## Ways down end -/

/-- **Every way down comes to an end**, and `descend` goes it. -/
theorem descends_descend (s : Source) (next own : String → String → List String) (seen : KeySet)
    (paths : List String) : Descends s next own seen paths (s.descend next own seen paths).1 := by
  fun_induction descend s next own seen paths with
  | case1 => exact .done
  | case2 seen p rest hp ih => exact .passed hp ih
  | case3 seen p rest hp hc _ ih => exact .bare hp hc ih
  | case4 seen p rest hp content hc _ _ ihbelow ihbeside => exact .read hp hc ihbelow ihbeside

/-! ## The paths -/

theorem closureFrom_append (seen : KeySet) (paths others : List String) :
    s.closureFrom next seen (paths ++ others) =
      s.closureFrom next (s.closureFrom next seen paths) others := by
  fun_induction closureFrom s next seen paths with
  | case1 => rfl
  | case2 seen p rest hp ih => rw [List.cons_append, closureFrom_of_mem hp, ih]
  | case3 seen p rest hp hc ih => rw [List.cons_append, closureFrom_of_none hp hc, ih]
  | case4 seen p rest hp content hc ih =>
    rw [List.cons_append, closureFrom_of_content hp hc, ← List.append_assoc, ih]

/-- **The paths seen in the end are the closure.** -/
theorem Descends.seen_eq (h : Descends s next own seen paths w) :
    w.seen = s.closureFrom next seen paths := by
  induction h with
  | done => rw [closureFrom]
  | passed hp _ ih => rw [ih, closureFrom_of_mem hp]
  | bare hp hc _ ih => rw [ih, closureFrom_of_none hp hc]
  | read hp hc _ _ ihbelow ihbeside =>
    rw [closureFrom_of_content hp hc, closureFrom_append, ← ihbelow]
    exact ihbeside

theorem Descends.mem_seen (h : Descends s next own seen paths w) {q : String} (hq : q ∈ seen) :
    q ∈ w.seen := by
  rw [h.seen_eq]
  exact mem_closureFrom (.inl hq)

/-! ## The names -/

/-- **The names found are those of the paths that were not seen before.** -/
theorem Descends.mem_found (h : Descends s next own seen paths w) {name : String} :
    name ∈ w.found ↔ ∃ q content, (q ∈ w.seen ∧ ¬q ∈ seen) ∧ s.content q = some content ∧
      name ∈ own q content := by
  induction h with
  | done =>
    simp only [KeySet.not_mem_empty, false_iff]
    rintro ⟨q, content, ⟨hq, hn⟩, -⟩
    exact hn hq
  | passed _ _ ih => exact ih
  | @bare seen p rest w hp hc hw ih =>
    rw [ih]
    constructor
    · rintro ⟨q, content, ⟨hq, hn⟩, hname⟩
      exact ⟨q, content, ⟨hq, fun hs => hn (KeySet.mem_add.2 (.inr hs))⟩, hname⟩
    · rintro ⟨q, content, ⟨hq, hn⟩, ht, hname⟩
      refine ⟨q, content, ⟨hq, fun hs => ?_⟩, ht, hname⟩
      rcases KeySet.mem_add.1 hs with rfl | hs
      · rw [hc] at ht; cases ht
      · exact hn hs
  | @read seen p text rest below beside hp hc hbelow hbeside ihbelow ihbeside =>
    have hpseen : p ∈ below.seen := hbelow.mem_seen (KeySet.mem_add.2 (.inl rfl))
    simp only [Descent.join, KeySet.mem_union, KeySet.mem_ofList, ihbelow, ihbeside]
    constructor
    · rintro (hname | ⟨q, content, ⟨hq, hn⟩, hname⟩ | ⟨q, content, ⟨hq, hn⟩, hname⟩)
      · exact ⟨p, text, ⟨hbeside.mem_seen hpseen, hp⟩, hc, hname⟩
      · exact ⟨q, content, ⟨hbeside.mem_seen hq, fun hs => hn (KeySet.mem_add.2 (.inr hs))⟩, hname⟩
      · exact ⟨q, content,
          ⟨hq, fun hs => hn (hbelow.mem_seen (KeySet.mem_add.2 (.inr hs)))⟩, hname⟩
    · -- a path that is new on the whole way is this one, or new below it, or new beside it
      rintro ⟨q, content, ⟨hq, hn⟩, ht, hname⟩
      by_cases hqp : q = p
      · subst hqp
        rw [hc] at ht
        cases ht
        exact .inl hname
      · by_cases hqb : q ∈ below.seen
        · have hn' : ¬q ∈ seen.add p := fun hs => (KeySet.mem_add.1 hs).elim hqp hn
          exact .inr (.inl ⟨q, content, ⟨hqb, hn'⟩, ht, hname⟩)
        · exact .inr (.inr ⟨q, content, ⟨hq, hqb⟩, ht, hname⟩)

end CompileCache.Source
