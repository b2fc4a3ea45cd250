import CompileCache.Artifact.Basic
import CompileCache.Json.Decode
import CompileCache.Json.Printer
import CompileCache.Json.Reader

/-!
# Json — artifacts as JSON

* `toJson`, `ofJson?` for each part of an artifact: an absent location or code is left out, absent
  typings are `null`.
* `Artifact.text`: an artifact on one line.
* `Artifact.parse?`, `Diagnostics.parse?`, `Dependencies.parse?`: reading a text.
-/

namespace CompileCache

open Json (Record)

/-! ## Places -/

namespace Position

def toJson (p : Position) : Json :=
  .object [("line", .natural p.line.toNat), ("column", .natural p.column.toNat)]

def ofJson? (j : Json) : Option Position := do
  let r ← j.record? ["line", "column"]
  return ⟨← r.required "line" Json.word32?, ← r.required "column" Json.word32?⟩

end Position

namespace Location

def toJson (l : Location) : Json := .object [("start", l.start.toJson), ("end", l.stop.toJson)]

def ofJson? (j : Json) : Option Location := do
  let r ← j.record? ["start", "end"]
  return ⟨← r.required "start" Position.ofJson?, ← r.required "end" Position.ofJson?⟩

end Location

namespace Span

def toJson (s : Span) : Json :=
  .object [("start", .natural s.start.toNat), ("end", .natural s.stop.toNat)]

def ofJson? (j : Json) : Option Span := do
  let r ← j.record? ["start", "end"]
  return ⟨← r.required "start" Json.word32?, ← r.required "end" Json.word32?⟩

end Span

/-! ## Diagnostics -/

namespace Severity

/-- The name of a severity. -/
def name : Severity → String
  | .error => "error"
  | .warning => "warning"

/-- The severities by name. -/
def table : List (String × Severity) := [("error", .error), ("warning", .warning)]

end Severity

namespace Diagnostic

def toJson (d : Diagnostic) : Json :=
  .object <|
    [("code", .natural d.code.toNat), ("message", .text d.message), ("span", d.span.toJson)] ++
    (d.loc.elim [] fun l => [("loc", l.toJson)]) ++
    [("severity", .text d.severity.name), ("unresolved_module", .bool d.unresolved)]

def ofJson? (j : Json) : Option Diagnostic := do
  let r ← j.record? ["code", "message", "span", "loc", "severity", "unresolved_module"]
  let code ← r.required "code" Json.word32?
  let message ← r.required "message" Json.text?
  let span ← r.required "span" Span.ofJson?
  let loc ← r.optional "loc" Location.ofJson?
  let severity ← r.default "severity" .error (Json.oneOf? Severity.table)
  let unresolved ← r.default "unresolved_module" false Json.bool?
  return ⟨code, message, span, loc, severity, unresolved⟩

end Diagnostic

namespace Diagnostics

def toJson (d : Diagnostics) : Json :=
  .object [("syntactic", .array (d.syntactic.map Diagnostic.toJson)),
    ("semantic", .array (d.semantic.map Diagnostic.toJson))]

def ofJson? (j : Json) : Option Diagnostics := do
  let r ← j.record? ["syntactic", "semantic"]
  return ⟨← r.default "syntactic" [] (Json.list? Diagnostic.ofJson?),
    ← r.default "semantic" [] (Json.list? Diagnostic.ofJson?)⟩

/-- The diagnostics that a text is. -/
def parse? (s : String) : Option Diagnostics := (Json.lenient? s).bind ofJson?

/-- Diagnostics on one line. -/
def text (d : Diagnostics) : String := d.toJson.compact

end Diagnostics

/-! ## Dependencies -/

namespace Stamp

def toJson (s : Stamp) : Json :=
  .object [("version", .natural s.version.toNat), ("content_hash", .text s.hash)]

def ofJson? (j : Json) : Option Stamp := do
  let r ← j.record? ["version", "content_hash"]
  return ⟨← r.required "version" Json.word64?, ← r.required "content_hash" Json.text?⟩

end Stamp

namespace Dependencies

/-- Stamped paths as an object. -/
def stampsToJson (m : KeyMap Stamp) : Json := .object (m.mapValues fun _ s => s.toJson).entries

def toJson (d : Dependencies) : Json :=
  .object [("ref_files", stampsToJson d.refFiles), ("modules", stampsToJson d.modules),
    ("typings", Json.ofOption stampsToJson d.typings)]

def ofJson? (j : Json) : Option Dependencies := do
  let r ← j.record? ["ref_files", "modules", "typings"]
  return ⟨← r.default "ref_files" KeyMap.empty (Json.map? Stamp.ofJson?),
    ← r.default "modules" KeyMap.empty (Json.map? Stamp.ofJson?),
    ← r.default "typings" none (Json.nullable? (Json.map? Stamp.ofJson?))⟩

/-- The dependencies that a text is. -/
def parse? (s : String) : Option Dependencies := (Json.lenient? s).bind ofJson?

/-- Dependencies on one line. -/
def text (d : Dependencies) : String := d.toJson.compact

end Dependencies

/-! ## Artifacts -/

namespace Artifact

def toJson (u : Artifact) : Json :=
  .object <| [("path", .text u.path), ("version", .natural u.version.toNat)] ++
    (u.code.elim [] fun c => [("emitted_code", .text c)]) ++
    [("diagnostics", u.diagnostics.toJson), ("dependencies", u.dependencies.toJson)]

def ofJson? (j : Json) : Option Artifact := do
  let r ← j.record? ["path", "version", "emitted_code", "diagnostics", "dependencies"]
  let path ← r.required "path" Json.text?
  let version ← r.required "version" Json.word64?
  let code ← r.default "emitted_code" none (Json.nullable? Json.text?)
  let diagnostics ← r.default "diagnostics" .empty Diagnostics.ofJson?
  let dependencies ← r.default "dependencies" .empty Dependencies.ofJson?
  return ⟨path, version, code, diagnostics, dependencies⟩

/-- An artifact on one line. -/
def text (u : Artifact) : String := u.toJson.compact

/-- The artifact that a text is. -/
def parse? (s : String) : Option Artifact := (Json.lenient? s).bind ofJson?

end Artifact

end CompileCache
