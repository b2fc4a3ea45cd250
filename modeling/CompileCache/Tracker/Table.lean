import CompileCache.Artifact.Json
import CompileCache.Disk.Files
import CompileCache.Tracker.Basic

/-!
# Table — the records of a tracker as a file

* `Tracker.text`: the records over several lines.
* `Tracker.ofText?`: the tracker that a text is.
* `Tracker.load`: the tracker of a file; one that is missing or holds no table gives the empty one.
* `Tracker.save`: writes the file, and then nothing is unsaved.
-/

namespace CompileCache.Tracker

/-- A record as an object. -/
def recordToJson (s : Stamp) : Json :=
  .object [("content_hash", .text s.hash), ("version", .natural s.version.toNat)]

/-- The record that a value is. -/
def recordOfJson? (j : Json) : Option Stamp := do
  let r ← j.record? ["content_hash", "version"]
  let hash ← r.required "content_hash" Json.text?
  let version ← r.required "version" Json.word64?
  return ⟨version, hash⟩

/-- The records as an object. -/
def toJson (t : Tracker) : Json :=
  .object [("records", .object (t.records.mapValues fun _ => recordToJson).entries)]

/-- The records over several lines. -/
def text (t : Tracker) : String := t.toJson.pretty

/-- The records that a value is. -/
def ofJson? (j : Json) : Option Tracker := do
  let r ← j.record? ["records"]
  let records ← r.required "records" (Json.map? recordOfJson?)
  return ⟨records, false⟩

/-- The tracker that a text is. -/
def ofText? (s : String) : Option Tracker := (Json.lenient? s).bind ofJson?

/-- The tracker of a file; one that is missing or holds no table gives the empty tracker. -/
def load (d : Disk) (path : String) : Tracker :=
  match d.readText path with
  | .ok s => (ofText? s).getD .empty
  | .error _ => .empty

/-- Writes the records to a file. -/
def save (t : Tracker) (d : Disk) (path : String) : Tracker × Disk × Except Disk.Fault Unit :=
  match d.writeUnder path (.ofText t.text) with
  | (d', .ok ()) => ({ t with dirty := false }, d', .ok ())
  | (d', .error f) => (t, d', .error f)

end CompileCache.Tracker
