import CompileCache.Glob.Lookup
import CompileCache.Glob.Parser
import CompileCache.Options.Basic
import CompileCache.Options.Schema

/-!
# Check — settings that can be used

* `ConfigError`, `ConfigError.message`: why settings are refused.
* `Options.excludeGlobs`: the patterns for excluded paths, read in order and checked together.
* `Options.validate`: the checks on settings, however they were made.
* **`Options.ofText`**: the settings that a text is, checked by the schema and by `validate`.
-/

namespace CompileCache

/-- Why settings are refused. -/
inductive ConfigError where
  /-- The text is no JSON. -/
  | json (reason : String)
  /-- The file of the text cannot be read. -/
  | unreadable (reason : String)
  /-- There is no schema to check the value by. -/
  | noSchema (reason : String)
  /-- The value breaks the schema. -/
  | schema (v : Violation)
  /-- The value cannot be decoded. -/
  | undecodable
  /-- The name of the architecture is no identifier. -/
  | architecture (name : String)
  /-- A path of ambient typings is empty. -/
  | emptyTypings (index : Nat)
  /-- A pattern for excluded paths is wrong. -/
  | glob (pattern : String) (fault : Glob.Fault)
  /-- The patterns for excluded paths cannot be used together. -/
  | globs (fault : Glob.SetFault)
  /-- A reason that a caller states. -/
  | stated (reason : String)

/-- The wording of a refusal. -/
def ConfigError.message : ConfigError → String
  | .json reason => "Invalid JSON: " ++ reason
  | .unreadable reason => "Failed to read options: " ++ reason
  | .noSchema reason => reason
  | .schema v => "Options validation failed: " ++ v.message
  | .undecodable => "Invalid options"
  | .architecture name => "Invalid architecture name: '" ++ name ++ "'"
  | .emptyTypings index => "Empty typings path at types[" ++ toString index ++ "]"
  | .glob pattern fault =>
    "Invalid glob pattern: error parsing glob '" ++ pattern ++ "': " ++ fault.message
  | .globs fault => "Failed to build globset: " ++ fault.message
  | .stated reason => reason

/-- Whether a character may stand in the name of an architecture. -/
def isIdentifierChar (c : Char) : Bool := c.isAlphanum || c = '.' || c = '_' || c = '-'

/-- Whether a text is an identifier: not empty, all characters allowed. -/
def isIdentifier (s : String) : Bool := !s.isEmpty && s.toList.all isIdentifierChar

namespace Options

/-- Reads patterns in order, up to the first that is wrong. -/
def readGlobs : List String → Except ConfigError (List (List Glob.Token))
  | [] => .ok []
  | p :: ps =>
    match Glob.parse p with
    | .error f => .error (.glob p f)
    | .ok tokens => (readGlobs ps).map (tokens :: ·)

/-- The patterns for excluded paths, or `none` if nothing is excluded. -/
def excludeGlobs (o : Options) : Except ConfigError (Option (List (List Glob.Token))) :=
  if o.exclude.isEmpty then .ok none
  else match readGlobs o.exclude with
    | .error e => .error e
    | .ok globs =>
      match Glob.check globs with
      | .error f => .error (.globs f)
      | .ok () => .ok (some globs)

/-- Whether a path matches one of the patterns. -/
def matchesAny (globs : Option (List (List Glob.Token))) (path : String) : Bool :=
  (globs.getD []).any (Glob.isMatch · path)

/-- Checks the name of the architecture, then the typings, then the patterns. -/
def validate (o : Options) : Except ConfigError Unit :=
  if isIdentifier o.arch = false then .error (.architecture o.arch)
  else match o.types.findIdx? String.isEmpty with
    | some i => .error (.emptyTypings i)
    | none => o.excludeGlobs.map fun _ => ()

/-- The settings that a value is, by the shapes of a schema. -/
def ofValue (shapes : List (String × Shape)) (j : Json) : Except ConfigError Options :=
  match Schema.checkBy shapes j with
  | some v => .error (.schema v)
  | none =>
    match ofJson? j with
    | none => .error .undecodable
    | some o => o.validate.map fun _ => o

/-- The settings that a text is, by a schema if there is one. Of equal names the last counts. -/
def ofTextBy (schema : Except String (List (String × Shape))) (s : String) :
    Except ConfigError Options :=
  match Json.parse s with
  | .error reason => .error (.json reason)
  | .ok j =>
    match schema with
    | .error reason => .error (.noSchema reason)
    | .ok shapes => ofValue shapes j.sorted

/-- **The settings that a text is.** -/
def ofText (s : String) : Except ConfigError Options := ofTextBy (Schema.read Schema.text) s

end Options

end CompileCache
