import CompileCache.Proofs.Tracker.Hashes
import CompileCache.Proofs.Tracker.Observes

/-!
# Seen — the stamps that a source gets from a tracker

* `Tracker.seen`: the stamp that a path is observed with.
* **`Tracker.Observes.seen_eq`**: observing paths of a source changes none of these stamps.
* `Tracker.current_observeEach`: the records after some paths were observed, in whatever order.
* `References.sealed`, **`References.stamped_fst`**: a record is told by the stamps alone.
* `References.paths`, `Dependencies.examined`: the paths that stamping and classifying observe.
-/

namespace CompileCache

variable (d : Digest)

/-- The stamp that a path is observed with. -/
def Tracker.seen (t : Tracker) (s : Source) (path : String) : Stamp := (t.observe d s path).1

/-- A record of references with given stamps. -/
def References.sealed (r : References) (stamp : String → Stamp) : Dependencies where
  refFiles := KeyMap.mapValues (fun path _ => stamp path) r.refFiles
  modules := KeyMap.mapValues (fun path _ => stamp path) r.modules
  typings := r.typings.map (KeyMap.mapValues fun path _ => stamp path)

/-- All paths of references, in the order in which they are stamped. -/
def References.paths (r : References) : List String :=
  r.refFiles.toList ++ r.modules.toList ++ r.typings.elim [] KeySet.toList

/-- The paths of the recorded typings that classifying observes: none if a root is not recorded. -/
def examinedTypings (recorded : Option (KeyMap Stamp)) (roots : List String) : List String :=
  match recorded with
  | none => []
  | some files => if roots.any fun root => !files.contains root then [] else files.keys

/-- The paths that classifying a record observes: it stops behind the first part that changed. -/
def Dependencies.examined (deps : Dependencies) (roots : List String) (s : Source) : List String :=
  examinedTypings deps.typings roots ++
    if s.typingsDiffer d roots deps.typings then []
    else deps.refFiles.keys ++ if s.changed d deps.refFiles then [] else deps.modules.keys

variable {d} {s : Source} {t t' : Tracker}

namespace Tracker

/-! ## Stamps -/

theorem seen_of_content {path content : String} (t : Tracker)
    (h : s.content path = some content) :
    t.seen d s path = next (d.ofText content) (t.current path) := by
  unfold seen observe
  rw [h]
  exact stamp_fst t path content

theorem seen_of_none {path : String} (t : Tracker) (h : s.content path = none) :
    t.seen d s path = .missing := by
  unfold seen observe
  rw [h]

/-- **Observing paths of a source changes none of the stamps that it gets.** -/
theorem Observes.seen_eq (h : Observes d s t t') (path : String) :
    t'.seen d s path = t.seen d s path := by
  cases hc : s.content path with
  | none => rw [seen_of_none t' hc, seen_of_none t hc]
  | some content =>
    rw [seen_of_content t' hc, seen_of_content t hc]
    rcases h.current_eq_or path with hcur | ⟨content', hc', hcur⟩
    · rw [hcur]
    · rw [hc] at hc'
      cases hc'
      rw [hcur, next_next]

theorem Observes.seen_eq' (h : Observes d s t t') : t'.seen d s = t.seen d s :=
  funext h.seen_eq

theorem seen_congr (h : ∀ path, t'.current path = t.current path) :
    t'.seen d s = t.seen d s := by
  funext path
  cases hc : s.content path with
  | none => rw [seen_of_none t' hc, seen_of_none t hc]
  | some content => rw [seen_of_content t' hc, seen_of_content t hc, h]

theorem version_fst {path content : String} (t : Tracker) (h : s.content path = some content) :
    (t.version d path content).1 = (t.seen d s path).version := by
  rw [seen_of_content t h, version, stamp_fst]

theorem version_snd {path content : String} (t : Tracker) (h : s.content path = some content) :
    (t.version d path content).2 = (t.observe d s path).2 := by
  unfold version observe
  rw [h]

theorem observes_version {path content : String} (t : Tracker) (h : s.content path = some content) :
    t.Observes d s (t.version d path content).2 := by
  rw [t.version_snd h]
  exact .step path (.refl t)

/-! ## Records -/

theorem current_observe (t : Tracker) (s : Source) (path p : String) :
    (t.observe d s path).2.current p =
      if p = path ∧ s.holds path = true then some (t.seen d s p) else t.current p := by
  unfold Source.holds
  cases hc : s.content path with
  | none =>
    unfold observe
    rw [hc]
    simp
  | some content =>
    unfold observe
    rw [hc]
    dsimp only
    rw [current_stamp]
    by_cases hp : p = path
    · subst hp
      simp [t.seen_of_content hc]
    · simp [hp]

theorem observeEach_fst (t : Tracker) (s : Source) (l : List String) :
    (t.observeEach d s l).1 = l.map fun path => (path, t.seen d s path) := by
  induction l generalizing t with
  | nil => rfl
  | cons path l ih =>
    have hseen := (Observes.step path (.refl t) : Observes d s t _).seen_eq
    simp only [observeEach, List.map_cons, ih, hseen]
    rfl

theorem current_observeEach (t : Tracker) (s : Source) (l : List String) (p : String) :
    (t.observeEach d s l).2.current p =
      if p ∈ l ∧ s.holds p = true then some (t.seen d s p) else t.current p := by
  induction l generalizing t with
  | nil => simp [observeEach]
  | cons path l ih =>
    have hseen := (Observes.step path (.refl t) : Observes d s t _).seen_eq
    simp only [observeEach, ih, hseen, current_observe, List.mem_cons]
    by_cases hp : p = path
    · subst hp
      by_cases hl : p ∈ l <;> by_cases hh : s.holds p = true <;> simp [hl, hh]
    · simp [hp]

theorem observeEach_append (t : Tracker) (s : Source) (l l' : List String) :
    (t.observeEach d s (l ++ l')).2 = ((t.observeEach d s l).2.observeEach d s l').2 := by
  induction l generalizing t with
  | nil => rfl
  | cons path l ih => exact ih (t.observe d s path).2

theorem records_ext (h : ∀ path, t'.current path = t.current path) : t'.records = t.records :=
  KeyMap.ext_get? h

theorem stampAll_fst (t : Tracker) (s : Source) (paths : KeySet) :
    (t.stampAll d s paths).1 = KeyMap.mapValues (fun path _ => t.seen d s path) paths := by
  change KeyMap.ofList (t.observeEach d s paths.toList).1 = _
  rw [observeEach_fst]
  apply KeyMap.ext_get?
  intro k
  rw [KeyMap.get?_ofList_map, KeyMap.get?_mapValues]
  by_cases hk : k ∈ paths
  · rw [if_pos (KeySet.mem_toList.2 hk)]
    obtain ⟨u, hu⟩ := Option.isSome_iff_exists.1 (KeySet.mem_iff_contains.1 hk)
    rw [hu]
    rfl
  · have hn : KeyMap.get? paths k = none := by
      simpa [KeySet.mem_iff_contains, KeyMap.contains] using hk
    rw [if_neg fun h => hk (KeySet.mem_toList.1 h), hn]
    rfl

end Tracker

/-! ## Stamping references -/

/-- **A record is told by the stamps that the source gets.** -/
theorem References.stamped_fst (r : References) (t : Tracker) (s : Source) :
    (r.stamped d t s).1 = r.sealed (t.seen d s) := by
  have h₁ := t.observes_stampAll (d := d) s r.refFiles
  have h₂ := h₁.trans (Tracker.observes_stampAll _ s r.modules)
  unfold stamped sealed
  cases r.typings with
  | none => simp only [Tracker.stampAll_fst, h₁.seen_eq, Option.map_none]
  | some typings => simp only [Tracker.stampAll_fst, h₁.seen_eq, h₂.seen_eq, Option.map_some]

theorem References.stamped_snd (r : References) (t : Tracker) (s : Source) :
    (r.stamped d t s).2 = (t.observeEach d s r.paths).2 := by
  unfold stamped paths Tracker.stampAll
  cases r.typings with
  | none => simp only [Option.elim_none, List.append_nil, Tracker.observeEach_append]
  | some typings => simp only [Option.elim_some, Tracker.observeEach_append]

/-! ## Classifying records -/

theorem typingsChanged_snd (recorded : Option (KeyMap Stamp)) (roots : List String) (t : Tracker)
    (s : Source) : (typingsChanged d recorded roots t s).2 =
      (t.observeEach d s (examinedTypings recorded roots)).2 := by
  unfold typingsChanged examinedTypings
  cases recorded with
  | none => rfl
  | some files =>
    dsimp only
    split <;> rfl

theorem classify_snd (deps : Dependencies) (roots : List String) (t : Tracker) (s : Source) :
    (classify d deps roots t s).2 = (t.observeEach d s (deps.examined d roots s)).2 := by
  unfold classify Dependencies.examined
  have ht := typingsChanged_fst (d := d) deps.typings roots t s
  have ht' := typingsChanged_snd (d := d) deps.typings roots t s
  rw [Tracker.observeEach_append]
  cases h : typingsChanged d deps.typings roots t s with
  | mk differ t₁ =>
    rw [h] at ht ht'
    rw [← ht, ← ht']
    cases differ with
    | true => rfl
    | false =>
      have hf := stalePaths_eq_nil_iff (d := d) deps.refFiles t₁ s
      rw [if_neg Bool.false_ne_true, Tracker.observeEach_append]
      change _ = (Tracker.observeEach d (stalePaths d deps.refFiles t₁ s).2 s _).2
      dsimp only
      cases h₂ : stalePaths d deps.refFiles t₁ s with
      | mk files t₂ =>
        rw [h₂] at hf
        cases files with
        | cons f fs =>
          have hchanged : s.changed d deps.refFiles = true :=
            Bool.of_not_eq_false fun hn => List.cons_ne_nil f fs (hf.2 hn)
          rw [hchanged]
          rfl
        | nil =>
          rw [hf.1 rfl, if_neg Bool.false_ne_true]
          change _ = (stalePaths d deps.modules t₂ s).2
          dsimp only
          split <;> next h₃ => rw [h₃]

end CompileCache
