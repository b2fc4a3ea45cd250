import CompileCache.Proofs.Disk.Growth
import CompileCache.Proofs.Json.Lossless
import CompileCache.Tracker.Table

/-!
# Saved — records read back from their file

* `lossless_record`: a record read back from the object that it is written as.
* **`Tracker.ofText?_text`**: the text of a tracker is read as a tracker with the same records.
* `Tracker.saved`: a tracker without unsaved records; **`Tracker.load_writeUnder`**: what a
  successful write leaves is loaded as that tracker.
* `Tracker.eq_or_dirty`: observing changes nothing, or leaves something to save.
-/

namespace CompileCache

namespace Tracker

open Json

theorem lossless_record : Lossless recordToJson recordOfJson? where
  legible s depth := .members <| by
    simpa [word64.legible] using ofText.legible s.hash (depth + 1)
  read_write s := by
    obtain ⟨r, hr, -, hget⟩ :
        ∃ r, record? ["content_hash", "version"] (recordToJson s) = some r ∧ _ :=
      exists_record_of_sublist (by decide) (by simp)
    rw [recordOfJson?, hr]
    simp [Record.required, hget, KeyMap.lookup, word64.read_write, ofText.read_write]

theorem ofJson?_toJson (t : Tracker) : ofJson? t.toJson = some ⟨t.records, false⟩ := by
  obtain ⟨r, hr, -, hget⟩ : ∃ r, record? ["records"] t.toJson = some r ∧ _ :=
    exists_record_of_sublist (by decide) (by simp)
  rw [ofJson?, hr]
  simp [Record.required, hget, KeyMap.lookup, lossless_record.map.read_write]

theorem legible_toJson (t : Tracker) : Legible .lenient 0 t.toJson :=
  .members <| by simpa using lossless_record.map.legible t.records 1

/-- **The text of a tracker is read as a tracker with the same records**, whatever the paths are
and however large the versions. -/
theorem ofText?_text (t : Tracker) : ofText? t.text = some ⟨t.records, false⟩ := by
  unfold ofText? text
  rw [lenient?_pretty t.legible_toJson]
  exact t.ofJson?_toJson

/-- The tracker without unsaved records. -/
def saved (t : Tracker) : Tracker := ⟨t.records, false⟩

theorem saved_of_clean {t : Tracker} (h : ¬t.dirty = true) : t.saved = t := by
  obtain ⟨records, dirty⟩ := t
  cases dirty
  · rfl
  · exact absurd rfl h

theorem text?_ofText (s : String) : (Body.ofText s).text? = some s := by
  change String.fromUTF8? s.toUTF8 = some s
  unfold String.fromUTF8?
  exact dif_pos s.isValidUTF8

theorem toOption_readText (d : Disk) (path : String) :
    (d.readText path).toOption = (d.read path).toOption.bind Body.text? := by
  unfold Disk.readText
  cases d.read path with
  | error f => rfl
  | ok b =>
    rw [Except.bind, Except.toOption, Option.bind_some]
    cases b.text? <;> rfl

theorem load_eq (d : Disk) (path : String) : load d path =
    (((d.read path).toOption.bind Body.text?).bind ofText?).getD .empty := by
  rw [← toOption_readText]
  unfold load
  cases d.readText path <;> rfl

theorem dirty_load (disk : Disk) (file : String) : (load disk file).dirty = false := by
  rw [load_eq]
  cases ht : ((disk.read file).toOption.bind Body.text?).bind ofText? with
  | none => rfl
  | some t =>
    obtain ⟨text, -, htext⟩ := Option.bind_eq_some_iff.1 ht
    obtain ⟨j, -, hj⟩ := Option.bind_eq_some_iff.1 htext
    simp only [ofJson?, Option.bind_eq_bind, Option.bind_eq_some_iff] at hj
    obtain ⟨r, -, records, -, hrecords⟩ := hj
    cases hrecords
    rfl

/-- **What a successful write leaves is loaded as the tracker that was written.** -/
theorem load_of_read {t : Tracker} {d : Disk} {path : String}
    (h : d.read path = .ok (.ofText t.text)) : load d path = t.saved := by
  rw [load_eq, h, Except.toOption, Option.bind_some, text?_ofText, Option.bind_some, ofText?_text]
  rfl

theorem load_congr {d d' : Disk} {path path' : String}
    (h : (d'.read path').toOption = (d.read path).toOption) : load d' path' = load d path := by
  rw [load_eq, load_eq, h]

theorem load_writeUnder {t : Tracker} {d : Disk} {path : String}
    (h : (d.writeUnder path (.ofText t.text)).2 = .ok ()) :
    load (d.writeUnder path (.ofText t.text)).1 path = t.saved := by
  obtain ⟨ns, ha, -⟩ := Disk.arrives_writeUnder h
  exact load_of_read ha.read_eq

/-! ## What is left to save -/

variable {d : Digest}

theorem observe_eq_or_dirty (t : Tracker) (s : Source) (path : String) :
    (t.observe d s path).2 = t ∨ (t.observe d s path).2.dirty = true := by
  unfold observe stamp
  split
  · exact .inl rfl
  · dsimp only
    split
    · exact .inl rfl
    · exact .inr rfl

/-- **Observing changes nothing, or leaves something to save.** -/
theorem eq_or_dirty (t : Tracker) (s : Source) (l : List String) :
    (t.observeEach d s l).2 = t ∨ (t.observeEach d s l).2.dirty = true := by
  induction l generalizing t with
  | nil => exact .inl rfl
  | cons path l ih =>
    change ((t.observe d s path).2.observeEach d s l).2 = t ∨
      ((t.observe d s path).2.observeEach d s l).2.dirty = true
    rcases ih (t.observe d s path).2 with h | h
    · rw [h]
      exact t.observe_eq_or_dirty s path
    · exact .inr h

end Tracker

end CompileCache
