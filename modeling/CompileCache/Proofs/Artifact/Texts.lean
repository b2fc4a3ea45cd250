import CompileCache.Artifact.Json
import CompileCache.Proofs.Json.Lossless

/-!
# Texts — artifacts read back from their text

A field is written in one of three ways: always, as `null` when there is nothing to write, or not at
all then. One lossless law for each part of an artifact, in the order of the definitions:

* `Position.lossless`, `Location.lossless`, `Span.lossless`, `Severity.lossless`,
  `Diagnostic.lossless`, `Diagnostics.lossless`;
* `Stamp.lossless`, `Dependencies.lossless`, `Artifact.lossless`.
* **`Artifact.text_lossless`**: artifacts, diagnostics and dependencies are read back from their
  texts, and what has one text is one value.
-/

namespace CompileCache

open Json

/-! ## Places -/

theorem Position.lossless : Lossless Position.toJson Position.ofJson? where
  legible p depth := .members <| by simp [word32.legible]
  read_write p := by
    obtain ⟨r, hr, -, hget⟩ : ∃ r, record? ["line", "column"] p.toJson = some r ∧ _ :=
      exists_record_of_sublist (by decide) (by simp)
    rw [ofJson?, hr]
    simp [Record.required, hget, KeyMap.lookup, word32.read_write]

theorem Location.lossless : Lossless Location.toJson Location.ofJson? where
  legible l depth := .members <| by simp [(Position.lossless).legible]
  read_write l := by
    obtain ⟨r, hr, -, hget⟩ : ∃ r, record? ["start", "end"] l.toJson = some r ∧ _ :=
      exists_record_of_sublist (by decide) (by simp)
    rw [ofJson?, hr]
    simp [Record.required, hget, KeyMap.lookup, (Position.lossless).read_write]

theorem Span.lossless : Lossless Span.toJson Span.ofJson? where
  legible s depth := .members <| by simp [word32.legible]
  read_write s := by
    obtain ⟨r, hr, -, hget⟩ : ∃ r, record? ["start", "end"] s.toJson = some r ∧ _ :=
      exists_record_of_sublist (by decide) (by simp)
    rw [ofJson?, hr]
    simp [Record.required, hget, KeyMap.lookup, word32.read_write]

/-! ## Diagnostics -/

theorem Severity.lossless : Lossless (fun s => .text s.name) (oneOf? Severity.table) where
  legible _ _ := .text _
  read_write s := by cases s <;> rfl

theorem Diagnostic.lossless : Lossless Diagnostic.toJson Diagnostic.ofJson? where
  legible d depth := .members <| by
    cases d.loc <;>
      simp [word32.legible, ofText.legible, ofBool.legible, (Span.lossless).legible,
        (Location.lossless).legible]
  read_write d := by
    obtain ⟨code, message, span, loc, severity, unresolved⟩ := d
    have hloc (l : Location) : nullable? Location.ofJson? l.toJson = some (some l) :=
      ((Location.lossless).nullable nofun).read_write (some l)
    obtain ⟨r, hr, hpositional, hget⟩ :
        ∃ r, record? ["code", "message", "span", "loc", "severity", "unresolved_module"]
          (toJson ⟨code, message, span, loc, severity, unresolved⟩) = some r ∧ _ :=
      exists_record_of_sublist (by decide) (by cases loc <;> simp)
    rw [ofJson?, hr]
    cases loc <;>
      simp [Record.required, Record.optional, Record.default, hpositional, hget, KeyMap.lookup,
        word32.read_write, ofText.read_write, ofBool.read_write, (Span.lossless).read_write,
        (Severity.lossless).read_write, hloc]

theorem Diagnostics.lossless : Lossless Diagnostics.toJson Diagnostics.ofJson? where
  legible d depth := .members <| by simp [(Diagnostic.lossless).list.legible]
  read_write d := by
    obtain ⟨r, hr, -, hget⟩ : ∃ r, record? ["syntactic", "semantic"] d.toJson = some r ∧ _ :=
      exists_record_of_sublist (by decide) (by simp)
    rw [ofJson?, hr]
    simp [Record.default, hget, KeyMap.lookup, (Diagnostic.lossless).list.read_write]

/-! ## Dependencies -/

theorem Stamp.lossless : Lossless Stamp.toJson Stamp.ofJson? where
  legible s depth := .members <| by simp [word64.legible, ofText.legible]
  read_write s := by
    obtain ⟨r, hr, -, hget⟩ : ∃ r, record? ["version", "content_hash"] s.toJson = some r ∧ _ :=
      exists_record_of_sublist (by decide) (by simp)
    rw [ofJson?, hr]
    simp [Record.required, hget, KeyMap.lookup, word64.read_write, ofText.read_write]

namespace Dependencies

theorem lossless_stamps : Lossless stampsToJson (map? Stamp.ofJson?) := (Stamp.lossless).map

/-- Absent typings are told from empty ones. -/
theorem lossless_typings :
    Lossless (ofOption stampsToJson) (nullable? (map? Stamp.ofJson?)) :=
  lossless_stamps.nullable nofun

theorem lossless : Lossless toJson ofJson? where
  legible d depth := .members <| by simp [(lossless_stamps).legible, (lossless_typings).legible]
  read_write d := by
    obtain ⟨r, hr, -, hget⟩ :
        ∃ r, record? ["ref_files", "modules", "typings"] d.toJson = some r ∧ _ :=
      exists_record_of_sublist (by decide) (by simp)
    rw [ofJson?, hr]
    simp [Record.default, hget, KeyMap.lookup, (lossless_stamps).read_write,
      (lossless_typings).read_write]

end Dependencies

/-! ## Artifacts -/

namespace Artifact

theorem lossless : Lossless toJson ofJson? where
  legible u depth := .members <| by
    cases u.code <;>
      simp [word64.legible, ofText.legible, (Diagnostics.lossless).legible,
        (Dependencies.lossless).legible]
  read_write u := by
    obtain ⟨path, version, code, diagnostics, dependencies⟩ := u
    have hcode : ∀ c : String, nullable? text? (.text c) = some (some c) := fun _ => rfl
    obtain ⟨r, hr, -, hget⟩ :
        ∃ r, record? ["path", "version", "emitted_code", "diagnostics", "dependencies"]
          (toJson ⟨path, version, code, diagnostics, dependencies⟩) = some r ∧ _ :=
      exists_record_of_sublist (by decide) (by cases code <;> simp)
    rw [ofJson?, hr]
    cases code <;>
      simp [Record.required, Record.default, hget, KeyMap.lookup, word64.read_write,
        ofText.read_write, (Diagnostics.lossless).read_write, (Dependencies.lossless).read_write,
        hcode]

/-- **Artifacts, diagnostics and dependencies are read back from their texts**, and what has one
text is one value. -/
theorem text_lossless :
    (∀ u : Artifact, parse? u.text = some u) ∧
    (∀ u v : Artifact, u.text = v.text → u = v) ∧
    (∀ d : Diagnostics, Diagnostics.parse? d.text = some d) ∧
    (∀ d e : Diagnostics, d.text = e.text → d = e) ∧
    (∀ d : Dependencies, Dependencies.parse? d.text = some d) ∧
    (∀ d e : Dependencies, d.text = e.text → d = e) :=
  ⟨lossless.compact, fun _ _ => lossless.compact_inj,
    Diagnostics.lossless.compact, fun _ _ => Diagnostics.lossless.compact_inj,
    Dependencies.lossless.compact, fun _ _ => Dependencies.lossless.compact_inj⟩

end Artifact

end CompileCache
