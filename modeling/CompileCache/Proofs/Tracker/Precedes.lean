import CompileCache.Proofs.Cache.Folders
import CompileCache.Proofs.Tracker.Observes
import CompileCache.Proofs.Tracker.Saved

/-!
# Precedes — trackers that count on

* `Tracker.Precedes`: all records of a tracker are followed by those of another one.
* `Tracker.Ample`, **`Tracker.Observes.precedes`**: observing counts on if all versions can grow.
* `Slot.IsTable`, **`Slot.IsTable.load_eq`**: a table is the same however its path is spelled.
-/

namespace CompileCache

namespace Tracker

/-- All records of a tracker are followed by those of another one. -/
def Precedes (t t' : Tracker) : Prop :=
  ∀ path old, t.current path = some old → ∃ new, t'.current path = some new ∧ new.Follows old

/-- All versions can grow. -/
def Ample (t : Tracker) : Prop := ∀ path last, t.current path = some last → last.CanGrow

instance (t : Tracker) : Decidable t.Ample :=
  decidable_of_iff (∀ p ∈ t.records.entries, p.2.CanGrow)
    ⟨fun h path last hl => h (path, last) ((t.records.mem_entries_iff path last).2 hl),
      fun h p hp => h p.1 p.2 ((t.records.mem_entries_iff p.1 p.2).1 hp)⟩

variable {d : Digest} {s : Source} {t t' t'' : Tracker}

theorem Precedes.refl (t : Tracker) : t.Precedes t := fun _ old h => ⟨old, h, .inl rfl⟩

theorem Precedes.trans (h : t.Precedes t') (h' : t'.Precedes t'') : t.Precedes t'' := by
  intro path old hold
  obtain ⟨mid, hmid, hm⟩ := h path old hold
  obtain ⟨new, hnew, hn⟩ := h' path mid hmid
  exact ⟨new, hnew, hn.trans hm⟩

/-- **Observing counts on if all versions can grow.** -/
theorem Observes.precedes (h : Observes d s t t') (ha : t.Ample) : t.Precedes t' := by
  intro path old hold
  obtain ⟨new, hnew, hfollows⟩ := h.exists_follows hold
  exact ⟨new, hnew, hfollows (ha path old hold)⟩

end Tracker

/-! ## Spellings -/

namespace Disk

theorem byteSize_lt_of_read {d : Disk} {path : String} {b : Body} (h : d.read path = .ok b) :
    path.utf8ByteSize < maxPath := by
  obtain ⟨names, hp⟩ := resolve_of_read h
  have hn : d.node? path = .ok (.file b) := by
    unfold node?
    rw [hp]
    rfl
  exact byteSize_lt_of_node? hn

/-- What is read does not tell the spelling of the path, as long as that is not too long. -/
theorem read_respell {d : Disk} {p q : String} (hn : Path.names q = Path.names p)
    (hp : EndsInName (Path.pieces p)) (hq : EndsInName (Path.pieces q))
    (hpl : p.utf8ByteSize < maxPath) (hql : q.utf8ByteSize < maxPath) :
    (d.read q).toOption = (d.read p).toOption := by
  cases h : d.read p with
  | ok b =>
    obtain ⟨ns, ha⟩ := exists_arrives h
    rw [(ha.respell hn hq hql).read_eq]
  | error f =>
    cases h' : d.read q with
    | error f' => rfl
    | ok b =>
      obtain ⟨ns, ha⟩ := exists_arrives h'
      rw [(ha.respell hn.symm hp hpl).read_eq] at h
      cases h

end Disk

namespace Slot

theorem endsInName_tablePath (directory : String) {arch : String} (h : '/' ∉ arch.toList) :
    Disk.EndsInName (Path.pieces (tablePath directory arch)) := by
  obtain ⟨hplain, hidle, -⟩ := Path.plain_append h ".json" (by decide) (by decide)
  obtain ⟨ps, hps, -⟩ := Path.exists_pieces_join (Path.join directory "versions")
    (Path.isAbsolute_of_plain hplain)
  intro n hn
  rw [tablePath, hps, Path.pieces_of_plain hplain, List.getLast?_concat] at hn
  cases hn
  exact hidle

/-- The path of a table in one of some directories. -/
def IsTable (D : String → Prop) (file : String) : Prop :=
  ∃ directory arch, D directory ∧ '/' ∉ arch.toList ∧ file = tablePath directory arch

variable {D : String → Prop} {file file' path : String} {disk : Disk} {stamp : Stamp}

theorem IsTable.endsInName (h : IsTable D file) : Disk.EndsInName (Path.pieces file) := by
  obtain ⟨directory, arch, -, ha, rfl⟩ := h
  exact endsInName_tablePath directory ha

theorem IsTable.straight (h : IsTable D file)
    (ho : ∀ directory, D directory → disk.Orderly directory) : disk.Straight file := by
  obtain ⟨directory, arch, hd, ha, rfl⟩ := h
  exact (ho directory hd).table ha

theorem byteSize_lt_of_load (h : (Tracker.load disk file).current path = some stamp) :
    file.utf8ByteSize < Disk.maxPath := by
  unfold Tracker.load Disk.readText at h
  cases hr : disk.read file with
  | ok b => exact Disk.byteSize_lt_of_read hr
  | error f =>
    rw [hr] at h
    cases h

/-- **A table is the same however its path is spelled**, as long as that is not too long. -/
theorem IsTable.load_eq (h : IsTable D file) (h' : IsTable D file')
    (hn : Path.names file' = Path.names file) (hl : file.utf8ByteSize < Disk.maxPath)
    (hl' : file'.utf8ByteSize < Disk.maxPath) :
    Tracker.load disk file' = Tracker.load disk file :=
  Tracker.load_congr (Disk.read_respell hn h.endsInName h'.endsInName hl hl')

theorem IsTable.precedes {disk' : Disk} (h : IsTable D file) (h' : IsTable D file')
    (hn : Path.names file' = Path.names file) (hl : file.utf8ByteSize < Disk.maxPath)
    (hp : (Tracker.load disk file).Precedes (Tracker.load disk' file)) :
    (Tracker.load disk file').Precedes (Tracker.load disk' file') := by
  intro path old hold
  have hl' := byteSize_lt_of_load hold
  rw [h.load_eq h' hn hl hl'] at hold ⊢
  exact hp path old hold

end Slot

end CompileCache
