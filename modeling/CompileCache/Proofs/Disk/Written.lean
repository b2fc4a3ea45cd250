import CompileCache.Proofs.Disk.Spelling
import Mathlib.Logic.Relation

/-!
# Written — disks after some files were written

* `Disk.Written`: a disk after files were written under some paths, with or without success.
* `Disk.leaf?_or_arrives`: a file changes only if the path that is written under leads to it.
* **`Disk.Written.arrives`**: a path leads to the same file with the same content as before, if in
  the end none of the paths that were written under leads to that file.
-/

namespace CompileCache.Disk

variable {d d' : Disk} {Q R : String → Prop} {p : String} {ns : List String} {b : Body}

/-- A disk after files were written under some paths, with or without success. -/
def Written (Q : String → Prop) : Disk → Disk → Prop :=
  Relation.ReflTransGen fun d d' => ∃ q b, Q q ∧ d' = (d.writeUnder q b).1

namespace Written

theorem refl (Q : String → Prop) (d : Disk) : Written Q d d := Relation.ReflTransGen.refl

theorem single {q : String} (hq : Q q) (d : Disk) (b : Body) :
    Written Q d (d.writeUnder q b).1 := Relation.ReflTransGen.single ⟨q, b, hq, rfl⟩

theorem trans {d'' : Disk} (h : Written Q d d') (h' : Written Q d' d'') : Written Q d d'' :=
  Relation.ReflTransGen.trans h h'

theorem mono (h : Written Q d d') (hr : ∀ q, Q q → R q) : Written R d d' :=
  Relation.ReflTransGen.mono (fun _ _ ⟨q, b, hq, he⟩ => ⟨q, b, hr q hq, he⟩) _ _ h

theorem grows (h : Written Q d d') : d.Grows d' := by
  induction h with
  | refl => exact .refl d
  | tail _ hstep ih =>
    obtain ⟨q, b, -, rfl⟩ := hstep
    exact ih.trans (grows_writeUnder _ q b)

end Written

theorem leaf?_writeUnder_of_error {path : String} {f : Fault}
    (h : (d.writeUnder path b).2 = .error f) : (d.writeUnder path b).1.leaf? = d.leaf? := by
  have hl := leaf?_makeDirs (d := d) (Path.parent path)
  unfold writeUnder at h ⊢
  split
  · next h₁ => rw [h₁] at hl; exact hl
  · next d₁ h₁ =>
    rw [h₁] at h hl
    dsimp only at h hl
    cases h₂ : d₁.write path b with
    | error f => exact hl
    | ok d₂ => rw [h₂] at h; cases h

/-- **A file changes only if the path that is written under leads to it.** -/
theorem leaf?_or_arrives (d : Disk) (q : String) (b : Body) (ns : List String) :
    (d.writeUnder q b).1.leaf? ns = d.leaf? ns ∨ (d.writeUnder q b).1.Arrives q ns b := by
  cases hw : (d.writeUnder q b).2 with
  | error f => exact .inl (congrFun (leaf?_writeUnder_of_error hw) ns)
  | ok u =>
    obtain ⟨ms, harrives, hother⟩ := arrives_writeUnder hw
    by_cases hns : ns = ms
    · exact .inr (hns ▸ harrives)
    · exact .inl (hother ns hns)

theorem exists_file_writeUnder (q : String) (c : Body) (h : d.get? ns = some (.file b)) :
    ∃ b', (d.writeUnder q c).1.get? ns = some (.file b') := by
  rcases d.leaf?_or_arrives q c ns with hl | ha
  · exact ⟨b, get?_of_leaf? (by rw [hl, leaf?_of_get? h rfl])⟩
  · exact ⟨c, ha.get?_eq⟩

namespace Written

theorem exists_file (h : Written Q d d') (hf : d.get? ns = some (.file b)) :
    ∃ b', d'.get? ns = some (.file b') := by
  induction h with
  | refl => exact ⟨b, hf⟩
  | tail _ hstep ih =>
    obtain ⟨q, c, -, rfl⟩ := hstep
    obtain ⟨b', hb'⟩ := ih
    exact exists_file_writeUnder q c hb'

/-- A path that leads to a file goes on to lead there, whatever the content is. -/
theorem exists_arrives (h : Written Q d d') (ha : d.Arrives p ns b) :
    ∃ b', d'.Arrives p ns b' := by
  obtain ⟨b', hb'⟩ := h.exists_file ha.get?_eq
  exact ⟨b', ha.grow h.grows hb'⟩

/-- **A path leads to the same file with the same content as before**, if in the end none of the
paths that were written under leads there. -/
theorem arrives (h : Written Q d d') (ha : d.Arrives p ns b)
    (hq : ∀ q, Q q → d'.Apart p q ∧ Path.names p ≠ Path.names q) : d'.Arrives p ns b := by
  induction h using Relation.ReflTransGen.head_induction_on with
  | refl => exact ha
  | @head d d₁ hstep hrest ih =>
    obtain ⟨q, c, hqq, rfl⟩ := hstep
    rcases d.leaf?_or_arrives q c ns with hl | haq
    · refine ih (ha.grow (grows_writeUnder d q c) (get?_of_leaf? ?_))
      rw [hl, leaf?_of_get? ha.get?_eq rfl]
    · -- both paths lead to the file in the end, which they do not
      obtain ⟨b', hb'⟩ := exists_file_writeUnder q c ha.get?_eq
      obtain ⟨b₁, h₁⟩ := exists_arrives hrest (ha.grow (grows_writeUnder d q c) hb')
      obtain ⟨b₂, h₂⟩ := exists_arrives hrest haq
      obtain ⟨hapart, hne⟩ := hq q hqq
      exact absurd (hapart ns b₁ b₂ h₁ h₂) hne

theorem linkless (h : Written Q d d') (hd : d.Linkless) : d'.Linkless := by
  induction h with
  | refl => exact hd
  | tail _ hstep ih =>
    obtain ⟨q, c, -, rfl⟩ := hstep
    exact ih.writeUnder q c

end Written

end CompileCache.Disk
