import CompileCache.Engine.References
import CompileCache.Staleness

/-!
# Observes — what observing a source does to a tracker

* `Tracker.Observes`: one tracker becomes another by observing paths of a source.
* `observes_stamped`, **`observes_classify`**: stamping references and classifying a record do
  nothing else.
* **`Tracker.Observes.current_eq`**: the stamp of a path stays while its content stays.
* **`Tracker.Observes.current_eq_or`**: otherwise it is that of the content, behind the last one.
* `Stamp.Follows`, `Stamp.CanGrow`, **`Tracker.Observes.exists_follows`**: no record is lost, and a
  version that can grow gets no lower.
-/

namespace CompileCache

/-! ## Stamps that follow each other -/

/-- A stamp is another one, or has a higher version. -/
def Stamp.Follows (new old : Stamp) : Prop := new = old ∨ old.version < new.version

theorem Stamp.Follows.trans {a b c : Stamp} (h : c.Follows b) (h' : b.Follows a) : c.Follows a := by
  rcases h with rfl | h
  · exact h'
  · rcases h' with rfl | h'
    · exact .inr h
    · exact .inr (UInt64.lt_trans h' h)

theorem Stamp.Follows.eq_of_version_eq {new old : Stamp} (h : new.Follows old)
    (hv : old.version = new.version) : new = old := by
  rcases h with h | h
  · exact h
  · rw [hv] at h
    exact absurd h (UInt64.lt_irrefl _)

/-- A version can grow if it is not the greatest one there is, behind which versions start again
from zero. -/
def Stamp.CanGrow (s : Stamp) : Prop := s.version + 1 ≠ 0

instance (s : Stamp) : Decidable s.CanGrow := inferInstanceAs (Decidable (_ ≠ _))

/-- **The next stamp follows a last one that can grow.** -/
theorem Tracker.follows_next (hash : String) {last : Stamp} (h : last.CanGrow) :
    (next hash (some last)).Follows last := by
  unfold next
  dsimp only
  split
  · exact .inl rfl
  · right
    have hlt := last.version.toNat_lt
    rw [Stamp.CanGrow, ne_eq, ← UInt64.toNat_inj, UInt64.toNat_add] at h
    rw [UInt64.lt_iff_toNat_lt, UInt64.toNat_add]
    change ¬(last.version.toNat + 1) % 2 ^ 64 = 0 at h
    change last.version.toNat < (last.version.toNat + 1) % 2 ^ 64
    omega

/-! ## Observing -/

variable (d : Digest)

/-- One tracker becomes another by observing paths of a source. -/
inductive Tracker.Observes (s : Source) : Tracker → Tracker → Prop
  | refl (t : Tracker) : Observes s t t
  | step {t t' : Tracker} (path : String) (h : Observes s t t') :
      Observes s t (t'.observe d s path).2

variable {d} {s : Source} {t t' t'' : Tracker}

theorem Tracker.Observes.trans (h : Observes d s t t') (h' : Observes d s t' t'') :
    Observes d s t t'' := by
  induction h' with
  | refl => exact h
  | step path _ ih => exact .step path ih

theorem Tracker.observes_observeEach (t : Tracker) (s : Source) (l : List String) :
    Observes d s t (t.observeEach d s l).2 := by
  induction l generalizing t with
  | nil => exact .refl t
  | cons p l ih => exact .trans (.step p (.refl t)) (ih (t.observe d s p).2)

theorem Tracker.observes_stampAll (t : Tracker) (s : Source) (paths : KeySet) :
    Observes d s t (t.stampAll d s paths).2 := t.observes_observeEach s paths.toList

theorem References.observes_stamped (r : References) (t : Tracker) (s : Source) :
    t.Observes d s (r.stamped d t s).2 := by
  have h₁ := t.observes_stampAll (d := d) s r.refFiles
  have h₂ := h₁.trans (Tracker.observes_stampAll _ s r.modules)
  unfold stamped
  cases r.typings with
  | none => exact h₂
  | some typings => exact h₂.trans (Tracker.observes_stampAll _ s typings)

theorem observes_stalePaths (recorded : KeyMap Stamp) (t : Tracker) (s : Source) :
    t.Observes d s (stalePaths d recorded t s).2 := t.observes_observeEach s recorded.keys

theorem observes_typingsChanged (recorded : Option (KeyMap Stamp)) (roots : List String)
    (t : Tracker) (s : Source) : t.Observes d s (typingsChanged d recorded roots t s).2 := by
  unfold typingsChanged
  cases recorded with
  | none => exact .refl t
  | some files =>
    dsimp only
    split
    · exact .refl t
    · exact observes_stalePaths files t s

/-- **Classifying a record only observes paths.** -/
theorem observes_classify (deps : Dependencies) (roots : List String) (t : Tracker) (s : Source) :
    t.Observes d s (classify d deps roots t s).2 := by
  have h₁ := observes_typingsChanged (d := d) deps.typings roots t s
  unfold classify
  split
  · next ht => rw [ht] at h₁; exact h₁
  · next t₁ ht =>
    rw [ht] at h₁
    have h₂ := h₁.trans (observes_stalePaths deps.refFiles t₁ s)
    split
    · next hf => rw [hf] at h₂; exact h₂
    · next t₂ hf =>
      rw [hf] at h₂
      have h₃ := h₂.trans (observes_stalePaths deps.modules t₂ s)
      split
      · next hm => rw [hm] at h₃; exact h₃
      · next hm => rw [hm] at h₃; exact h₃

/-- **The stamp of a path stays while its content stays.** -/
theorem Tracker.Observes.current_eq (h : Observes d s t t') {path content : String}
    {stamp : Stamp} (hc : s.content path = some content) (hs : t.current path = some stamp)
    (hh : stamp.hash = d.ofText content) : t'.current path = some stamp := by
  induction h with
  | refl => exact hs
  | @step t' p h ih =>
    have hcur := ih
    unfold observe
    cases hp : s.content p with
    | none => exact hcur
    | some text =>
      dsimp only
      rw [current_stamp]
      split
      · next he =>
        subst he
        rw [hc] at hp
        cases hp
        rw [hcur, next, if_pos hh]
      · exact hcur

theorem Tracker.next_next (hash : String) (last : Option Stamp) :
    next hash (some (next hash last)) = next hash last := by
  rw [next, if_pos (hash_next hash last)]

/-- **The stamp of a path stays, or is that of its content** behind the last stamp. -/
theorem Tracker.Observes.current_eq_or (h : Observes d s t t') (path : String) :
    t'.current path = t.current path ∨ ∃ content, s.content path = some content ∧
      t'.current path = some (next (d.ofText content) (t.current path)) := by
  induction h with
  | refl => exact .inl rfl
  | @step t' p h ih =>
    unfold observe
    cases hp : s.content p with
    | none => exact ih
    | some text =>
      dsimp only
      rw [current_stamp]
      split
      · next he =>
        subst he
        refine .inr ⟨text, hp, ?_⟩
        rcases ih with ih | ⟨content, hc, ih⟩
        · rw [ih]
        · rw [hp] at hc
          cases hc
          rw [ih, next_next]
      · exact ih

/-- **No record is lost, and a version that can grow gets no lower.** -/
theorem Tracker.Observes.exists_follows (h : Observes d s t t') {path : String} {stamp : Stamp}
    (hs : t.current path = some stamp) : ∃ stamp', t'.current path = some stamp' ∧
      (stamp.CanGrow → stamp'.Follows stamp) := by
  rcases h.current_eq_or path with hc | ⟨content, -, hc⟩
  · exact ⟨stamp, hc.trans hs, fun _ => .inl rfl⟩
  · rw [hs] at hc
    exact ⟨_, hc, follows_next _⟩

theorem Tracker.current_version (t : Tracker) (path content : String) :
    (t.version d path content).2.current path =
      some ⟨(t.version d path content).1, d.ofText content⟩ := by
  unfold version
  dsimp only
  rw [current_stamp, if_pos rfl, stamp_fst]
  congr 1
  have h := hash_next (d.ofText content) (t.current path)
  cases hn : next (d.ofText content) (t.current path) with
  | mk v hash => rw [hn] at h; rw [← h]

end CompileCache
