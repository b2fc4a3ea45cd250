import CompileCache.Source.Basic

/-!
# Closure — the paths that contents lead to

* `closure`: the paths that some paths lead to, where `next path content` lists the paths that a
  content leads to. A path without content leads nowhere, so a finite source has a finite closure.
* `Reaches`: being led from one path to another, step by step.
* **`mem_closure`**: the closure of a list is what its members reach.
-/

namespace CompileCache

namespace Source

/-- All paths with content. -/
noncomputable def held (s : Source) : List String := s.finite.choose

theorem mem_held {s : Source} {p content : String} (h : s.content p = some content) :
    p ∈ s.held := s.finite.choose_spec p (Option.isSome_iff_exists.2 ⟨content, h⟩)

theorem countP_lt_countP {α : Type} {p q : α → Bool} {l : List α}
    (hle : ∀ a, p a = true → q a = true) {a : α} (ha : a ∈ l) (hp : p a = false)
    (hq : q a = true) : l.countP p < l.countP q := by
  induction l with
  | nil => simp at ha
  | cons b l ih =>
    have hl := List.countP_mono_left (l := l) fun a _ => hle a
    rw [List.countP_cons, List.countP_cons]
    rcases List.mem_cons.1 ha with rfl | ha
    · simp only [hp, hq, if_true, Bool.false_eq_true, if_false]; omega
    · have := ih ha
      have : (if p b = true then 1 else 0) ≤ if q b = true then 1 else 0 := by
        cases hb : p b with
        | false => simp
        | true => simp [hle b hb]
      omega

/-- Whether a path is not in a set. -/
def isUnseen (seen : KeySet) (p : String) : Bool := !decide (p ∈ seen)

/-- How many paths with content are not in a set. -/
noncomputable def unread (s : Source) (seen : KeySet) : Nat := s.held.countP (isUnseen seen)

theorem isUnseen_of_add {seen : KeySet} {p q : String} (h : isUnseen (seen.add p) q = true) :
    isUnseen seen q = true := by
  simp only [isUnseen, KeySet.mem_add, Bool.not_eq_eq_eq_not, Bool.not_true,
    decide_eq_false_iff_not, not_or] at h ⊢
  exact h.2

theorem unread_add_le (s : Source) (seen : KeySet) (p : String) :
    s.unread (seen.add p) ≤ s.unread seen :=
  List.countP_mono_left fun _ _ => isUnseen_of_add

theorem unread_add_lt {s : Source} {seen : KeySet} {p content : String}
    (h : s.content p = some content) (hp : ¬p ∈ seen) :
    s.unread (seen.add p) < s.unread seen :=
  countP_lt_countP (fun _ => isUnseen_of_add) (mem_held h) (by simp [isUnseen])
    (by simp [isUnseen, hp])

/-- The paths that the pending ones lead to, added to those that were seen. -/
def closureFrom (s : Source) (next : String → String → List String) (seen : KeySet) :
    List String → KeySet
  | [] => seen
  | p :: pending =>
    if p ∈ seen then closureFrom s next seen pending
    else match _h : s.content p with
      | none => closureFrom s next (seen.add p) pending
      | some content => closureFrom s next (seen.add p) (next p content ++ pending)
termination_by pending => (s.unread seen, pending.length)
decreasing_by
  · exact Prod.Lex.right _ (by simp)
  · rcases Nat.lt_or_eq_of_le (unread_add_le s seen p) with hlt | heq
    · exact Prod.Lex.left _ _ hlt
    · rw [heq]; exact Prod.Lex.right _ (by simp)
  · exact Prod.Lex.left _ _ (unread_add_lt _h (by assumption))

section Unfold

variable {s : Source} {next : String → String → List String} {seen : KeySet} {p : String}
  {pending : List String}

theorem closureFrom_of_mem (hp : p ∈ seen) :
    s.closureFrom next seen (p :: pending) = s.closureFrom next seen pending := by
  rw [closureFrom, if_pos hp]

theorem closureFrom_of_none (hp : ¬p ∈ seen) (hc : s.content p = none) :
    s.closureFrom next seen (p :: pending) = s.closureFrom next (seen.add p) pending := by
  rw [closureFrom, if_neg hp]
  split
  · rfl
  · next content h => rw [hc] at h; cases h

theorem closureFrom_of_content {content : String} (hp : ¬p ∈ seen)
    (hc : s.content p = some content) : s.closureFrom next seen (p :: pending) =
      s.closureFrom next (seen.add p) (next p content ++ pending) := by
  rw [closureFrom, if_neg hp]
  split
  · next h => rw [hc] at h; cases h
  · next content' h =>
    rw [hc] at h
    cases h
    rfl

end Unfold

/-- The paths that some paths lead to, these included. -/
def closure (s : Source) (next : String → String → List String) (roots : List String) : KeySet :=
  s.closureFrom next .empty roots

/-- Being led from one path to another, step by step. -/
inductive Reaches (s : Source) (next : String → String → List String) : String → String → Prop
  | refl (p : String) : Reaches s next p p
  | step {p q r content : String} (hc : s.content p = some content) (hq : q ∈ next p content)
      (hr : Reaches s next q r) : Reaches s next p r

variable {s : Source} {next : String → String → List String}

theorem Reaches.trans {p q r : String} (h : Reaches s next p q) (h' : Reaches s next q r) :
    Reaches s next p r := by
  induction h with
  | refl => exact h'
  | step hc hq _ ih => exact .step hc hq (ih h')

theorem Reaches.mem_of_closed {t : KeySet} {p q : String} (h : Reaches s next p q) (hp : p ∈ t)
    (ht : ∀ p ∈ t, ∀ content, s.content p = some content → ∀ q ∈ next p content, q ∈ t) :
    q ∈ t := by
  induction h with
  | refl => exact hp
  | step hc hq _ ih => exact ih (ht _ hp _ hc _ hq)

theorem mem_closureFrom {seen : KeySet} {pending : List String} {p : String}
    (h : p ∈ seen ∨ p ∈ pending) : p ∈ s.closureFrom next seen pending := by
  fun_induction closureFrom s next seen pending with
  | case1 => simpa using h
  | case2 seen q pending hq ih =>
    refine ih ?_
    rcases h with h | h
    · exact .inl h
    · rcases List.mem_cons.1 h with rfl | h
      · exact .inl hq
      · exact .inr h
  | case3 seen q pending _ _ ih =>
    refine ih ?_
    rcases h with h | h
    · exact .inl (KeySet.mem_add.2 (.inr h))
    · exact (List.mem_cons.1 h).imp_left fun e => KeySet.mem_add.2 (.inl e)
  | case4 seen q pending _ content _ ih =>
    refine ih ?_
    rcases h with h | h
    · exact .inl (KeySet.mem_add.2 (.inr h))
    · rcases List.mem_cons.1 h with rfl | h
      · exact .inl (KeySet.mem_add.2 (.inl rfl))
      · exact .inr (List.mem_append_right _ h)

theorem reaches_of_mem_closureFrom {seen : KeySet} {pending : List String} {p : String}
    (h : p ∈ s.closureFrom next seen pending) :
    p ∈ seen ∨ ∃ r ∈ pending, Reaches s next r p := by
  fun_induction closureFrom s next seen pending with
  | case1 => exact .inl h
  | case2 seen q pending hq ih =>
    refine (ih h).imp_right ?_
    rintro ⟨r, hr, hp⟩
    exact ⟨r, List.mem_cons_of_mem _ hr, hp⟩
  | case3 seen q pending _ _ ih =>
    rcases ih h with h | ⟨r, hr, hp⟩
    · rcases KeySet.mem_add.1 h with rfl | h
      · exact .inr ⟨p, List.mem_cons_self, .refl p⟩
      · exact .inl h
    · exact .inr ⟨r, List.mem_cons_of_mem _ hr, hp⟩
  | case4 seen q pending _ content hc ih =>
    rcases ih h with h | ⟨r, hr, hp⟩
    · rcases KeySet.mem_add.1 h with rfl | h
      · exact .inr ⟨p, List.mem_cons_self, .refl p⟩
      · exact .inl h
    · rcases List.mem_append.1 hr with hr | hr
      · exact .inr ⟨q, List.mem_cons_self, .step hc hr hp⟩
      · exact .inr ⟨r, List.mem_cons_of_mem _ hr, hp⟩

theorem closed_closureFrom {seen : KeySet} {pending : List String}
    (h : ∀ p ∈ seen, ∀ content, s.content p = some content → ∀ q ∈ next p content,
      q ∈ seen ∨ q ∈ pending) :
    ∀ p ∈ s.closureFrom next seen pending, ∀ content, s.content p = some content →
      ∀ q ∈ next p content, q ∈ s.closureFrom next seen pending := by
  fun_induction closureFrom s next seen pending with
  | case1 seen =>
    intro p hp content hc q hq
    simpa using h p hp content hc q hq
  | case2 seen r pending hr ih =>
    refine ih fun p hp content hc q hq => ?_
    rcases h p hp content hc q hq with h | h
    · exact .inl h
    · rcases List.mem_cons.1 h with rfl | h
      · exact .inl hr
      · exact .inr h
  | case3 seen r pending _ hn ih =>
    refine ih fun p hp content hc q hq => ?_
    rcases KeySet.mem_add.1 hp with rfl | hp
    · simp [hn] at hc
    · rcases h p hp content hc q hq with h | h
      · exact .inl (KeySet.mem_add.2 (.inr h))
      · exact (List.mem_cons.1 h).imp_left fun e => KeySet.mem_add.2 (.inl e)
  | case4 seen r pending _ text ht ih =>
    refine ih fun p hp content hc q hq => ?_
    rcases KeySet.mem_add.1 hp with rfl | hp
    · rw [ht] at hc
      cases hc
      exact .inr (List.mem_append_left _ hq)
    · rcases h p hp content hc q hq with h | h
      · exact .inl (KeySet.mem_add.2 (.inr h))
      · rcases List.mem_cons.1 h with rfl | h
        · exact .inl (KeySet.mem_add.2 (.inl rfl))
        · exact .inr (List.mem_append_right _ h)

/-- **The closure of a list is what its members reach.** -/
theorem mem_closure {roots : List String} {p : String} :
    p ∈ s.closure next roots ↔ ∃ r ∈ roots, Reaches s next r p := by
  constructor
  · intro h
    exact (reaches_of_mem_closureFrom h).resolve_left (KeySet.not_mem_empty p)
  · rintro ⟨r, hr, hp⟩
    refine hp.mem_of_closed (mem_closureFrom (.inr hr)) (closed_closureFrom fun q hq => ?_)
    exact absurd hq (KeySet.not_mem_empty q)

end Source

end CompileCache
