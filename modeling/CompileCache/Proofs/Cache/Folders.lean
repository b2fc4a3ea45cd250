import CompileCache.Proofs.Cache.Store
import CompileCache.Proofs.Disk.Spelling
import CompileCache.Session.Slot

/-!
# Folders — the files of a cache directory

* `Path.dots_join`: when a path under another one has two points.
* **`Slot.names_tablePath`**: the names of the path of a table; `Slot.names_tablePath_ne`: tables of
  different architectures have different names.
* `Disk.Orderly`: a cache directory whose files are where their paths say: its path has no two
  points, and no link is on the way to them.
* `Disk.Orderly.entry`, `Disk.Orderly.table`: these paths are straight.
-/

namespace CompileCache

namespace Path

theorem mem_names_iff {n path : String} (h : isIdle n = false) :
    n ∈ names path ↔ n ∈ pieces path := by
  simp [names, List.mem_filter, h]

theorem dots_join (base : String) {path : String} (h : isAbsolute path = false) :
    ".." ∈ pieces (join base path) ↔ ".." ∈ pieces base ∨ ".." ∈ pieces path := by
  obtain ⟨ps, hps, hnames⟩ := exists_pieces_join base h
  have hbase : ".." ∈ pieces base ↔ ".." ∈ ps := by
    rw [← mem_names_iff (by decide), ← hnames, List.mem_filter]
    simp [isIdle]
  rw [hps, List.mem_append, hbase]

theorem plain_append {stem : String} (h : '/' ∉ stem.toList) (extension : String)
    (he : '/' ∉ extension.toList) (hl : 2 < extension.toList.length) :
    '/' ∉ (stem ++ extension).toList ∧ isIdle (stem ++ extension) = false ∧
      ".." ≠ stem ++ extension := by
  have hn : ∀ s : String, s.toList.length ≤ 2 → stem ++ extension ≠ s := by
    rintro s hs rfl
    rw [String.toList_append, List.length_append] at hs
    omega
  refine ⟨?_, ?_, (hn ".." (by decide)).symm⟩
  · rw [String.toList_append, List.mem_append]
    rintro (hm | hm)
    · exact h hm
    · exact he hm
  · simp [isIdle, hn "" (by decide), hn "." (by decide)]

theorem dots_file {directory folder file : String} (hd : ".." ∉ pieces directory)
    (hfolder : '/' ∉ folder.toList) (hfile : '/' ∉ file.toList) (hf : ".." ≠ folder)
    (hn : ".." ≠ file) : ".." ∉ pieces (join (join directory folder) file) := by
  rw [dots_join _ (isAbsolute_of_plain hfile), dots_join _ (isAbsolute_of_plain hfolder),
    pieces_of_plain hfile, pieces_of_plain hfolder]
  simp [hd, hf, hn]

end Path

namespace Slot

theorem names_tablePath (directory : String) {arch : String} (h : '/' ∉ arch.toList) :
    Path.names (tablePath directory arch) =
      Path.names directory ++ ["versions", arch ++ ".json"] := by
  obtain ⟨hplain, hidle, -⟩ := Path.plain_append h ".json" (by decide) (by decide)
  rw [tablePath, Path.names_join _ (Path.isAbsolute_of_plain hplain),
    Path.names_join _ (by decide), Path.names_of_plain hplain hidle,
    Path.names_of_plain (k := "versions") (by decide) (by decide), List.append_assoc]
  rfl

theorem names_tablePath_ne (directory : String) {arch arch' : String} (h : '/' ∉ arch.toList)
    (h' : '/' ∉ arch'.toList) (hne : arch' ≠ arch) :
    Path.names (tablePath directory arch') ≠ Path.names (tablePath directory arch) := by
  rw [names_tablePath directory h, names_tablePath directory h']
  intro he
  have hl := List.append_cancel_left he
  have ha : arch' ++ ".json" = arch ++ ".json" := by simpa using hl
  exact hne ((String.append_left_inj ".json").1 ha)

end Slot

namespace Disk

variable {d : Disk} {directory : String}

/-- The files of a cache directory are where their paths say: its path has no two points, and no
link is on the way to the files or in their stead. -/
structure Orderly (d : Disk) (directory : String) : Prop where
  dots : ".." ∉ Path.pieces directory
  links : ∀ folder ∈ ["entries", "versions"], ∀ file : String, ∀ ns,
    ns <+: Path.names directory ++ [folder, file] → ∀ target, d.leaf? ns ≠ some (.link target)

theorem Orderly.entry (h : d.Orderly directory) {key : String} (hk : '/' ∉ key.toList) :
    d.Straight (Cache.entryPath directory key) where
  dots := by
    obtain ⟨hplain, -, hdots⟩ := Path.plain_append hk ".rkyv" (by decide) (by decide)
    exact Path.dots_file h.dots (by decide) hplain (by decide) hdots
  links := by
    rw [Cache.names_entryPath directory hk]
    exact h.links "entries" (by simp) _

theorem Orderly.table (h : d.Orderly directory) {arch : String} (ha : '/' ∉ arch.toList) :
    d.Straight (Slot.tablePath directory arch) where
  dots := by
    obtain ⟨hplain, -, hdots⟩ := Path.plain_append ha ".json" (by decide) (by decide)
    exact Path.dots_file h.dots (by decide) hplain (by decide) hdots
  links := by
    rw [Slot.names_tablePath directory ha]
    exact h.links "versions" (by simp) _

theorem Linkless.orderly (h : d.Linkless) (hd : ".." ∉ Path.pieces directory) :
    d.Orderly directory := ⟨hd, fun _ _ _ ns _ target => h ns target⟩

theorem leaf?_link_writeUnder {path : String} {b : Body} {ns : List String} {target : String}
    (h : (d.writeUnder path b).1.leaf? ns = some (.link target)) :
    d.leaf? ns = some (.link target) := by
  rcases leaf?_writeUnder d path b ns with hl | ⟨hl, -⟩
  · rw [← hl]; exact h
  · rw [hl] at h; cases h

theorem Orderly.writeUnder (h : d.Orderly directory) (path : String) (b : Body) :
    (d.writeUnder path b).1.Orderly directory :=
  ⟨h.dots, fun folder hf file ns hns target hl =>
    h.links folder hf file ns hns target (leaf?_link_writeUnder hl)⟩

end Disk

end CompileCache
