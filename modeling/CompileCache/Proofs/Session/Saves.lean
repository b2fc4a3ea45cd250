import CompileCache.Proofs.Session.Frames
import CompileCache.Proofs.Tracker.Saved

/-!
# Saves — the files that emits leave

* `Desk.Saves`: the files that an emit has to write are written.
* **`Desk.load_emitContent`**: then the table of the slot holds what the slot holds.
* **`Desk.read_emitContent`**: and the entry file holds what was made.
-/

namespace CompileCache

instance (r : Except Disk.Fault Unit) : Decidable (r = .ok ()) :=
  match r with
  | .ok () => .isTrue rfl
  | .error _ => .isFalse nofun

theorem Slot.persist_of_saved {σ : Type} {s : Slot σ} {disk : Disk} {file : String}
    (hfile : s.tableFile = some file)
    (hw : s.tracker.dirty = true → (disk.writeUnder file (.ofText s.tracker.text)).2 = .ok ()) :
    (s.persist disk).1.tracker = s.tracker.saved ∧
    (s.persist disk).2 = if s.tracker.dirty = true then
      (disk.writeUnder file (.ofText s.tracker.text)).1 else disk := by
  unfold persist
  rw [hfile]
  dsimp only
  by_cases hdirty : s.tracker.dirty = true
  · have hok := hw hdirty
    rw [if_pos hdirty, if_pos hdirty]
    unfold Tracker.save
    cases hr : disk.writeUnder file (.ofText s.tracker.text) with
    | mk disk' result =>
      rw [hr] at hok
      cases hok
      exact ⟨rfl, rfl⟩
  · rw [if_neg hdirty, if_neg hdirty]
    exact ⟨(Tracker.saved_of_clean hdirty).symm, rfl⟩

namespace Desk

variable {σ : Type} {d : Digest} {e : Engine σ} {k : Desk σ} {view : View} {b : Build}
  {path content : String} {moduleName : Option String} {em : Emission} {r : Result σ}

/-- The files of a job that answers are written: the entry file unless the entry was there, and the
records of the slot if some are unsaved. -/
structure Saves (k : Desk σ) (fp : Fingerprint) (em : Emission) (r : Result σ) : Prop where
  entry : em.outcome ≠ .reuse → ∀ directory ∈ k.cache.directory,
    (k.disk.writeUnder (Cache.entryPath directory fp.key) (.entry ⟨fp, em.unit⟩)).2 = .ok ()
  table : r.desk.slot.tracker.dirty = true → ∀ file ∈ r.desk.slot.tableFile,
    (r.desk.disk.writeUnder file (.ofText r.desk.slot.tracker.text)).2 = .ok ()

instance (k : Desk σ) (fp : Fingerprint) (em : Emission) (r : Result σ) :
    Decidable (k.Saves fp em r) :=
  decidable_of_iff
    ((em.outcome ≠ .reuse → ∀ directory ∈ k.cache.directory,
      (k.disk.writeUnder (Cache.entryPath directory fp.key) (.entry ⟨fp, em.unit⟩)).2 = .ok ()) ∧
    (r.desk.slot.tracker.dirty = true → ∀ file ∈ r.desk.slot.tableFile,
      (r.desk.disk.writeUnder file (.ofText r.desk.slot.tracker.text)).2 = .ok ()))
    ⟨fun h => ⟨h.1, h.2⟩, fun h => ⟨h.entry, h.table⟩⟩

theorem emitContent_of_saves {file : String}
    (hw : (k.workOf d e view b path content moduleName).answer = .ok em)
    (hfile : k.slot.tableFile = some file)
    (hs : k.Saves (.of d content b.set.options.emit moduleName) em
      (k.workOf d e view b path content moduleName)) :
    (k.emitContent d e view b path content moduleName).desk.slot.tracker =
      (k.workOf d e view b path content moduleName).desk.slot.tracker.saved ∧
    (k.emitContent d e view b path content moduleName).desk.disk =
      if (k.workOf d e view b path content moduleName).desk.slot.tracker.dirty = true then
        ((k.workOf d e view b path content moduleName).desk.disk.writeUnder file
          (.ofText (k.workOf d e view b path content moduleName).desk.slot.tracker.text)).1
      else (k.workOf d e view b path content moduleName).desk.disk := by
  have hfile' : (k.workOf d e view b path content moduleName).desk.slot.tableFile = some file := by
    rw [tableFile_workOf, hfile]
  have hsaved := Slot.persist_of_saved hfile' fun hd => hs.table hd file hfile'
  rw [emitContent_eq]
  unfold finish
  rw [hw]
  exact hsaved

section Emits

variable {file directory : String}
  (hw : (k.workOf d e view b path content moduleName).answer = .ok em)
  (hfile : k.slot.tableFile = some file)
  (hs : k.Saves (.of d content b.set.options.emit moduleName) em
    (k.workOf d e view b path content moduleName))
include hw hfile hs

/-- **The table of the slot holds what the slot holds**, if it did so unless something was
unsaved. -/
theorem load_emitContent (hc : (view b.set.origin).content path = some content)
    (hentry : ∀ dir ∈ k.cache.directory, k.disk.Straight (Cache.entryPath dir
        (Fingerprint.of d content b.set.options.emit moduleName).key) ∧
      Path.names file ≠ Path.names (Cache.entryPath dir
        (Fingerprint.of d content b.set.options.emit moduleName).key))
    (htable : k.disk.Straight file)
    (hkept : ¬k.slot.tracker.dirty = true → Tracker.load k.disk file = k.slot.tracker) :
    Tracker.load (k.emitContent d e view b path content moduleName).desk.disk file =
      (k.emitContent d e view b path content moduleName).desk.slot.tracker := by
  obtain ⟨htracker, hdisk⟩ := emitContent_of_saves hw hfile hs
  rw [htracker, hdisk]
  split
  · next hdirty =>
    refine Tracker.load_writeUnder (hs.table hdirty file ?_)
    rw [tableFile_workOf, hfile]
    rfl
  · next hclean =>
    -- nothing new was observed, and the table is not written
    have hsame : (k.workOf d e view b path content moduleName).desk.slot.tracker =
        k.slot.tracker := by
      rw [tracker_workOf k hc] at hclean ⊢
      exact (k.slot.tracker.eq_or_dirty _ _).resolve_right hclean
    rw [Tracker.saved_of_clean hclean, hsame, ← hkept (hsame ▸ hclean)]
    refine Tracker.load_congr ?_
    rcases (way_workOf k view b path content moduleName).disk_eq with hk | ⟨dir, hdir, body, hk⟩
    · exact congrArg (fun disk : Disk => (disk.read file).toOption) hk
    · obtain ⟨hstraight, hne⟩ := hentry dir hdir
      rw [hk]
      exact Disk.read_writeUnder_of_ne hstraight htable hne body

variable (hd : k.cache.directory = some directory)
  (hentry : k.disk.Straight (Cache.entryPath directory
    (Fingerprint.of d content b.set.options.emit moduleName).key))
  (htable : k.disk.Straight file)
  (hne : Path.names file ≠ Path.names (Cache.entryPath directory
    (Fingerprint.of d content b.set.options.emit moduleName).key))
include hd hentry htable hne

/-- **The entry file holds what was made**, or what it held if nothing was made. -/
theorem read_emitContent :
    ((k.emitContent d e view b path content moduleName).desk.disk.read
      (Cache.entryPath directory
        (Fingerprint.of d content b.set.options.emit moduleName).key)).toOption =
      if em.outcome = .reuse then
        (k.disk.read (Cache.entryPath directory
          (Fingerprint.of d content b.set.options.emit moduleName).key)).toOption
      else some (.entry ⟨.of d content b.set.options.emit moduleName, em.unit⟩) := by
  have hdisk := (way_workOf (d := d) (e := e) k view b path content moduleName).disk
  rw [hw] at hdisk
  dsimp only at hdisk
  rw [(emitContent_of_saves hw hfile hs).2]
  by_cases ho : em.outcome = .reuse
  · rw [if_pos ho] at hdisk ⊢
    rw [hdisk]
    split
    · exact Disk.read_writeUnder_of_ne htable hentry (Ne.symm hne) _
    · rfl
  · have hwork : (k.workOf d e view b path content moduleName).desk.disk =
        (k.disk.writeUnder (Cache.entryPath directory
          (Fingerprint.of d content b.set.options.emit moduleName).key)
            (.entry ⟨.of d content b.set.options.emit moduleName, em.unit⟩)).1 := by
      rw [if_neg ho] at hdisk
      refine hdisk.trans ?_
      change k.cache.writeEntry k.disk _ = _
      unfold Cache.writeEntry Cache.entryPath?
      rw [hd]
      rfl
    obtain ⟨ns, ha, -⟩ := Disk.arrives_writeUnder (hs.entry ho directory hd)
    rw [if_neg ho, hwork]
    split
    · rw [Disk.read_writeUnder_of_ne (htable.writeUnder _ _) (hentry.writeUnder _ _) (Ne.symm hne),
        ha.read_eq]
      rfl
    · rw [ha.read_eq]
      rfl

end Emits

end Desk

end CompileCache
