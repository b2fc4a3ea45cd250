/-!
# Fault — what is wrong with a JSON text, and where

* `Fault.Cause`, `Fault.Cause.message`: the ways a text can fail to be JSON.
* `Fault`: a cause and how many bytes of the text lie behind its place.
* `Fault.place`: line and column of a fault, both in bytes, lines from one and columns from zero.
-/

namespace CompileCache.Json

/-- The ways a text can fail to be JSON. -/
inductive Fault.Cause where
  | endInValue
  | endInList
  | endInObject
  | endInText
  | expectedLiteral
  | expectedValue
  | expectedColon
  | expectedListEnd
  | expectedObjectEnd
  | trailingComma
  | trailingCharacters
  | keyNotText
  | invalidNumber
  | numberOutOfRange
  | invalidEscape
  | controlCharacter
  | loneSurrogate
  | surrogateEnds
  | tooDeep
  /-- A value of another kind stands where an embedded text has to stand. -/
  | notEmbedded (found : String)
  /-- An embedded text has a fault, with this wording. -/
  | embedded (wording : String)
deriving DecidableEq

/-- The wording of a cause. -/
def Fault.Cause.message : Fault.Cause → String
  | .endInValue => "EOF while parsing a value"
  | .endInList => "EOF while parsing a list"
  | .endInObject => "EOF while parsing an object"
  | .endInText => "EOF while parsing a string"
  | .expectedLiteral => "expected ident"
  | .expectedValue => "expected value"
  | .expectedColon => "expected `:`"
  | .expectedListEnd => "expected `,` or `]`"
  | .expectedObjectEnd => "expected `,` or `\x7d`"
  | .trailingComma => "trailing comma"
  | .trailingCharacters => "trailing characters"
  | .keyNotText => "key must be a string"
  | .invalidNumber => "invalid number"
  | .numberOutOfRange => "number out of range"
  | .invalidEscape => "invalid escape"
  | .controlCharacter =>
    "control character (\\u0000-\\u001F) found while parsing a string"
  | .loneSurrogate => "lone leading surrogate in hex escape"
  | .surrogateEnds => "unexpected end of hex escape"
  | .tooDeep => "recursion limit exceeded"
  | .notEmbedded found => "invalid type: " ++ found ++ ", expected raw value"
  | .embedded wording => wording

/-- A fault: its cause, and how many bytes of the text lie behind its place. -/
structure Fault where
  cause : Fault.Cause
  behind : Nat
deriving DecidableEq

/-- How many bytes a list of characters has in UTF-8. -/
def byteSize (cs : List Char) : Nat := cs.foldr (fun c n => c.utf8Size + n) 0

namespace Fault

/-- A fault at the place where `rest` begins. -/
def before (cause : Cause) (rest : List Char) : Fault := ⟨cause, byteSize rest⟩

/-- A fault one byte into `rest`, or at its end if it has none. -/
def into (cause : Cause) (rest : List Char) : Fault := ⟨cause, byteSize rest - 1⟩

/-- Line and column of the place that comes after `n` bytes of a text. -/
def placeAfter : List Char → Nat → Nat → Nat → Nat × Nat
  | [], n, line, column => (line, column + n)
  | c :: cs, n, line, column =>
    if n < c.utf8Size then (line, column + n)
    else if c = '\n' then placeAfter cs (n - c.utf8Size) (line + 1) 0
    else placeAfter cs (n - c.utf8Size) line (column + c.utf8Size)

/-- Line and column of a fault in a text. -/
def place (f : Fault) (cs : List Char) : Nat × Nat := placeAfter cs (byteSize cs - f.behind) 1 0

/-- The wording of a fault in a text. The place of a fault in an embedded text is in its wording. -/
def message (f : Fault) (cs : List Char) : String :=
  match f.cause with
  | .embedded wording => wording
  | cause =>
    let p := f.place cs
    cause.message ++ " at line " ++ toString p.1 ++ " column " ++ toString p.2

/-- A fault of a text that is embedded in another. -/
def inside (f : Fault) (cs : List Char) : Fault := ⟨.embedded (f.message cs), 0⟩

end Fault

end CompileCache.Json
