import CompileCache.Json.Reader

/-!
# Schema — the shapes that settings have in an option text

* `Shape`: what a setting may be.
* `Schema.text`, `Schema.read`: the text of the schema, and the shapes that such a text describes;
  `Schema.shapes`: the shapes of the ten settings.
* `Violation`, `Violation.message`: where a value breaks a schema, and how.
* `Shape.check`: the first violation of a shape. The type of a value comes before its content.
* **`Schema.checkBy`**: the first violation of a schema, in the order of the names.
-/

namespace CompileCache

/-- What a setting may be. -/
inductive Shape where
  /-- One of some names, or also `null`. -/
  | name (names : List String) (orNull : Bool)
  /-- A truth value. -/
  | flag
  /-- A list of texts that are not empty. -/
  | texts
  /-- A text of letters, digits, points, underscores and dashes, not empty. -/
  | identifier
deriving DecidableEq

/-- How a value breaks the schema. -/
inductive Violation.Cause where
  /-- It is of no allowed type. -/
  | wrongType (allowed : List String)
  /-- It is none of the allowed values. -/
  | notAmong (allowed : List Json)
  /-- It has characters that an identifier has not. -/
  | notIdentifier
  /-- It is an empty text. -/
  | empty
  /-- It has a member without a meaning. -/
  | unknownMember (name : String)

/-- A value that breaks the schema, and the way to it from the root. -/
structure Violation where
  cause : Violation.Cause
  value : Json
  pointer : List String

namespace Violation

/-- Candidates as a phrase: up to three are listed, of more the first two. -/
def candidates (l : List String) : String :=
  match l with
  | [a] => a
  | [a, b] => a ++ " or " ++ b
  | [a, b, c] => a ++ ", " ++ b ++ " or " ++ c
  | a :: b :: rest => a ++ ", " ++ b ++ " or " ++ toString rest.length ++ " other candidates"
  | [] => ""

/-- The wording of a violation. -/
def message (v : Violation) : String :=
  let value := v.value.compact
  let text := match v.cause with
    | .wrongType [t] => value ++ " is not of type " ++ Json.quote t
    | .wrongType ts => value ++ " is not of types " ++ ", ".intercalate (ts.map Json.quote)
    | .notAmong allowed => value ++ " is not one of " ++ candidates (allowed.map Json.compact)
    | .notIdentifier => value ++ " does not match \"^[A-Za-z0-9._-]+$\""
    | .empty => value ++ " is shorter than 1 character"
    | .unknownMember name =>
      "Additional properties are not allowed ('" ++ name ++ "' was unexpected)"
  text ++ " at " ++ String.join (v.pointer.map ("/" ++ ·))

end Violation

/-- Whether a character is in the class `[A-Za-z0-9._-]`. -/
def Shape.inClass (c : Char) : Bool :=
  ('A' ≤ c && c ≤ 'Z') || ('a' ≤ c && c ≤ 'z') || ('0' ≤ c && c ≤ '9') ||
    c = '.' || c = '_' || c = '-'

/-- The pattern of identifiers. -/
def Shape.pattern : String := "^[A-Za-z0-9._-]+$"

/-- Whether a text matches the pattern of identifiers. -/
def Shape.fitsPattern (s : String) : Bool := !s.isEmpty && s.toList.all inClass

/-- The first element that is no text, or empty. -/
def checkTexts (key : String) : Nat → List Json → Option Violation
  | _, [] => none
  | i, j :: rest =>
    match j with
    | .text s =>
      if s.isEmpty then some ⟨.empty, j, [key, toString i]⟩ else checkTexts key (i + 1) rest
    | _ => some ⟨.wrongType ["string"], j, [key, toString i]⟩

/-- The first violation of a shape by the value of a setting. -/
def Shape.check (key : String) (j : Json) : Shape → Option Violation
  | .flag =>
    match j with
    | .bool _ => none
    | _ => some ⟨.wrongType ["boolean"], j, [key]⟩
  | .name names orNull =>
    let allowed := names.map Json.text ++ (if orNull then [.null] else [])
    match j with
    | .text s => if names.contains s then none else some ⟨.notAmong allowed, j, [key]⟩
    | .null =>
      if orNull then none else some ⟨.wrongType ["string"], j, [key]⟩
    | _ => some ⟨.wrongType (if orNull then ["null", "string"] else ["string"]), j, [key]⟩
  | .texts =>
    match j with
    | .array items => checkTexts key 0 items
    | _ => some ⟨.wrongType ["array"], j, [key]⟩
  | .identifier =>
    match j with
    | .text s => if fitsPattern s then none else some ⟨.notIdentifier, j, [key]⟩
    | _ => some ⟨.wrongType ["string"], j, [key]⟩

namespace Schema

/-! ## The text of the schema -/

/-- The lines of the schema. -/
def lines : List String :=
  ["\x7b",
    "  \"$schema\": \"http://json-schema.org/draft-07/schema#\",",
    "  \"title\": \"emitcache compile options\",",
    "  \"type\": \"object\",",
    "  \"additionalProperties\": false,",
    "  \"properties\": \x7b",
    "    \"target\": \x7b",
    "      \"type\": \"string\",",
    "      \"enum\": [\"es5\", \"es2015\", \"es2017\", \"es2020\", \"esnext\"]",
    "    \x7d,",
    "    \"module\": \x7b",
    "      \"type\": \"string\",",
    "      \"enum\": [\"commonjs\", \"esnext\", \"none\"]",
    "    \x7d,",
    "    \"jsx\": \x7b",
    "      \"type\": [\"string\", \"null\"],",
    "      \"enum\": [\"preserve\", \"react\", null]",
    "    \x7d,",
    "    \"strict\": \x7b \"type\": \"boolean\" \x7d,",
    "    \"declaration\": \x7b \"type\": \"boolean\" \x7d,",
    "    \"source_map\": \x7b \"type\": \"boolean\" \x7d,",
    "    \"types\": \x7b",
    "      \"type\": \"array\",",
    "      \"items\": \x7b \"type\": \"string\", \"minLength\": 1 \x7d",
    "    \x7d,",
    "    \"exclude\": \x7b",
    "      \"type\": \"array\",",
    "      \"items\": \x7b \"type\": \"string\", \"minLength\": 1 \x7d",
    "    \x7d,",
    "    \"arch\": \x7b",
    "      \"type\": \"string\",",
    "      \"pattern\": \"^[A-Za-z0-9._-]+$\"",
    "    \x7d,",
    "    \"use_cache\": \x7b \"type\": \"boolean\" \x7d",
    "  \x7d",
    "\x7d"]

/-- The text of the schema. -/
def text : String := String.join (lines.map (· ++ "\n"))

/-- What a keyword says in a schema. -/
def keyword? (name : String) : Json → Option Json
  | .object members => KeyMap.lookup name members
  | _ => none

/-- A list of names, and whether `null` stands behind them. -/
def names? : List Json → Option (List String × Bool)
  | [] => some ([], false)
  | [.null] => some ([], true)
  | .text s :: rest => (names? rest).map fun r => (s :: r.1, r.2)
  | _ => none

/-- The shape of a setting of type text: one of some names, or an identifier. -/
def textShape? (j : Json) (orNull : Bool) : Option Shape :=
  match keyword? "enum" j, keyword? "pattern" j with
  | some (.array items), none =>
    match names? items with
    | some (names, null) => if null = orNull then some (.name names orNull) else none
    | none => none
  | none, some (.text p) =>
    if p = Shape.pattern ∧ orNull = false then some .identifier else none
  | _, _ => none

/-- The shape that the schema of a setting describes, if it is one of those that settings have. -/
def shapeOf? (j : Json) : Option Shape :=
  match keyword? "type" j with
  | some (.text "boolean") => some .flag
  | some (.text "string") => textShape? j false
  | some (.array [.text "string", .text "null"]) => textShape? j true
  | some (.text "array") => do
    let .text "string" ← (keyword? "items" j).bind (keyword? "type") | none
    let .number (.natural 1) ← (keyword? "items" j).bind (keyword? "minLength") | none
    return .texts
  | _ => none

/-- The shapes of the settings of a schema, or the name of one that has none. -/
def shapesOf : List (String × Json) → Except String (List (String × Shape))
  | [] => .ok []
  | (key, j) :: rest =>
    match shapeOf? j with
    | none => .error key
    | some shape => (shapesOf rest).map ((key, shape) :: ·)

/-- The shapes that a schema describes: it is one of objects without other members. -/
def compile (j : Json) : Except String (List (String × Shape)) :=
  match keyword? "type" j, keyword? "additionalProperties" j, keyword? "properties" j with
  | some (.text "object"), some (.bool false), some (.object settings) => shapesOf settings
  | _, _, _ => .error ""

/-- The shapes that the text of a schema describes. -/
def read (s : String) : Except String (List (String × Shape)) :=
  match Json.parse s with
  | .error reason => .error ("Invalid embedded options schema: " ++ reason)
  | .ok j => (compile j.sorted).mapError ("Invalid options schema compilation: " ++ ·)

/-- The shape of each setting. -/
def shapes : List (String × Shape) :=
  [("arch", .identifier), ("declaration", .flag), ("exclude", .texts),
    ("jsx", .name ["preserve", "react"] true),
    ("module", .name ["commonjs", "esnext", "none"] false), ("source_map", .flag),
    ("strict", .flag), ("target", .name ["es5", "es2015", "es2017", "es2020", "esnext"] false),
    ("types", .texts), ("use_cache", .flag)]

/-! ## Checks -/

/-- The first violation among the members of an object `whole`. -/
def checkMembers (shapes : List (String × Shape)) (whole : Json) :
    List (String × Json) → Option Violation
  | [] => none
  | (key, j) :: rest =>
    match KeyMap.lookup key shapes with
    | none => some ⟨.unknownMember key, whole, []⟩
    | some shape =>
      match shape.check key j with
      | some v => some v
      | none => checkMembers shapes whole rest

/-- **The first violation of a schema** by a value whose members are in key order. -/
def checkBy (shapes : List (String × Shape)) (j : Json) : Option Violation :=
  match j with
  | .object members => checkMembers shapes j members
  | _ => some ⟨.wrongType ["object"], j, []⟩

/-- The first violation of the schema of settings. -/
def check (j : Json) : Option Violation := checkBy shapes j

end Schema

end CompileCache
