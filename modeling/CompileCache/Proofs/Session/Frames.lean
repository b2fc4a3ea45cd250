import CompileCache.Proofs.Cache.Folders
import CompileCache.Proofs.Session.Plans

/-!
# Frames — what an emit leaves alone

* `Build.fingerprint?`: the fingerprint that an emit of a build looks for.
* `Desk.InOrder`: what a desk needs so that an emit leaves the files of other fingerprints alone.
* **`Desk.found?_emit_of_ne`**: what is found under other keys stays.
-/

namespace CompileCache

variable {σ : Type}

/-- A path to emit, and the name of the module if it is overridden. -/
abbrev Ask := String × Option String

/-- The fingerprint that an emit of a build looks for. -/
def Build.fingerprint? (d : Digest) (b : Build) (s : Source) (x : Ask) : Option Fingerprint :=
  (s.content x.1).map fun content => .of d content b.set.options.emit x.2

theorem Build.fingerprint?_of_content (d : Digest) (b : Build) {s : Source}
    {path content : String} (hc : s.content path = some content) (moduleName : Option String) :
    b.fingerprint? d s (path, moduleName) =
      some (.of d content b.set.options.emit moduleName) := by
  unfold fingerprint?
  rw [hc]
  rfl

namespace Desk

/-- If there is a cache directory, then the paths of its entry files and the path of the versions
have no two points and pass no link. -/
def Direct (k : Desk σ) : Prop := ∀ directory ∈ k.cache.directory,
  (∀ key : String, '/' ∉ key.toList → k.disk.Straight (Cache.entryPath directory key)) ∧
    ∀ file ∈ k.slot.tableFile, k.disk.Straight file

/-- What an emit of a build needs of the desk it works on. -/
structure InOrder (L : σ → WorkingSet → Prop) (b : Build) (k : Desk σ) : Prop where
  loaded : k.slot.active = b.registration → L k.slot.engine b.set
  tables : ∀ file ∈ k.slot.tableFile, ∃ directory arch, file = Slot.tablePath directory arch
  direct : k.Direct

variable {d : Digest} {e : Engine σ} {L : σ → WorkingSet → Prop} {k : Desk σ} {view : View}
  {b : Build} {path : String} {moduleName : Option String}

theorem directory_emit (k : Desk σ) (view : View) (b : Build) (path : String)
    (moduleName : Option String) :
    (k.emit d e view b path moduleName).desk.cache.directory = k.cache.directory := by
  rcases emit_eq_or (d := d) (e := e) k view b path moduleName with h | ⟨content, -, -, h⟩
  · rw [h]
  · rw [h, cache_emitContent]
    exact (way_workOf k view b path content moduleName).directory

theorem tableFile_emit (k : Desk σ) (view : View) (b : Build) (path : String)
    (moduleName : Option String) :
    (k.emit d e view b path moduleName).desk.slot.tableFile = k.slot.tableFile := by
  rcases k.station_emit (d := d) (e := e) view b path moduleName with h | h
  · rw [h]
  · exact congrArg (·.2.1) h

theorem InOrder.emit (hk : e.Keeps L) (h : k.InOrder L b) (view : View) (path : String)
    (moduleName : Option String) : (k.emit d e view b path moduleName).desk.InOrder L b where
  loaded := by
    rcases k.loaded_emit (d := d) view path moduleName hk h.loaded with hd | hl
    · rw [hd]; exact h.loaded
    · exact fun _ => hl
  tables := by
    rw [tableFile_emit]
    exact h.tables
  direct := by
    intro directory hd
    rw [directory_emit] at hd
    rw [tableFile_emit]
    obtain ⟨hentries, htable⟩ := h.direct directory hd
    exact ⟨fun key hkey => straight_emit (hentries key hkey) view b path moduleName,
      fun file hf => straight_emit (htable file hf) view b path moduleName⟩

section OtherKeys

variable (hp : d.Plain) (h : k.InOrder L b) {fp : Fingerprint} (hplain : '/' ∉ fp.key.toList)
  (hne : ∀ fp', b.fingerprint? d (view b.set.origin) (path, moduleName) = some fp' →
    fp'.key ≠ fp.key)
include hp h hplain hne

theorem load?_emit_of_ne : (k.emit d e view b path moduleName).desk.cache.load?
      (k.emit d e view b path moduleName).desk.disk fp = k.cache.load? k.disk fp := by
  refine Cache.load?_congr (k.directory_emit view b path moduleName) fun directory hd => ?_
  obtain ⟨hentries, htable⟩ := h.direct directory hd
  refine read_emit_of_ne (hentries _ hplain) ?_ ?_
  · intro content hc directory' hd'
    cases hd.symm.trans hd'
    refine ⟨hentries _ (hp _), Cache.names_entryPath_ne directory (hp _) hplain ?_⟩
    exact (hne _ (b.fingerprint?_of_content d hc moduleName)).symm
  · intro file hf
    obtain ⟨directory', arch, rfl⟩ := h.tables file hf
    exact ⟨htable _ hf, names_entryPath_ne_tablePath _ _ _ _⟩

theorem found?_emit_of_ne :
    (k.emit d e view b path moduleName).desk.found? fp = k.found? fp := by
  rw [found?_eq, found?_eq, load?_emit_of_ne hp h hplain hne]
  rcases emit_eq_or (d := d) (e := e) k view b path moduleName with he | ⟨content, -, hc, he⟩
  · rw [he]
  · have hkey := (hne _ (b.fingerprint?_of_content d hc moduleName)).symm
    rw [he, cache_emitContent,
      (way_workOf k view b path content moduleName).memory_of_ne hkey]
    rfl

end OtherKeys

end Desk

end CompileCache
