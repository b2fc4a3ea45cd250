import CompileCache.Mini.Statement
import CompileCache.Text.Blank
import CompileCache.Text.Pieces

/-!
# Line — reading one line

* `isName`: names begin with a letter, an underscore or a dollar sign; digits may follow.
* `isNumber`: decimal numbers with sign, fraction and exponent, and the names of what is no number.
* `quoted?`, `quotedAlone?`: a text in quotation marks of either kind, which has no escapes.
* `Line`, **`Line.read`**: a statement, a comment or neither.
-/

namespace CompileCache.Mini

open Text

/-! ## Names, numbers and quoted texts -/

/-- Whether a name may begin with a character. -/
def startsName (c : Char) : Bool := c.isAlpha || c = '_' || c = '$'

/-- Whether a character may stand in a name. -/
def continuesName (c : Char) : Bool := c.isAlphanum || c = '_' || c = '$'

/-- Whether a text is a name. -/
def isName : List Char → Bool
  | [] => false
  | c :: cs => startsName c && cs.all continuesName

/-- A text without the sign at its start. -/
def unsigned : List Char → List Char
  | '+' :: cs => cs
  | '-' :: cs => cs
  | cs => cs

/-- Whether a text is a list of digits, of which there is at least one. -/
def isDigits (cs : List Char) : Bool := !cs.isEmpty && cs.all Char.isDigit

/-- Whether a text is nothing or an exponent. -/
def isExponent : List Char → Bool
  | [] => true
  | c :: cs => (c = 'e' || c = 'E') && isDigits (unsigned cs)

/-- Whether a text is a decimal number without sign: digits with a point among them or not, at
least one of them, and an exponent or none. -/
def isDecimal (cs : List Char) : Bool :=
  let whole := cs.takeWhile Char.isDigit
  match cs.dropWhile Char.isDigit with
  | '.' :: rest =>
    let part := rest.takeWhile Char.isDigit
    !(whole.isEmpty && part.isEmpty) && isExponent (rest.dropWhile Char.isDigit)
  | rest => !whole.isEmpty && isExponent rest

/-- The names of what is no finite number, in lower case. -/
def unboundedNames : List String := ["inf", "infinity", "nan"]

/-- Whether a text is a number. -/
def isNumber (cs : List Char) : Bool :=
  isDecimal (unsigned cs) ||
    unboundedNames.any fun n => n.toList == (unsigned cs).map Char.toLower

/-- A quoted text at the start, and what comes after it. -/
def quoted? (cs : List Char) : Option (List Char × List Char) :=
  match trimStart cs with
  | [] => none
  | q :: body => if q = '"' || q = '\x27' then cut? q body else none

/-- A quoted text with nothing after it. -/
def quotedAlone? (cs : List Char) : Option (List Char) :=
  match quoted? cs with
  | some (body, rest) => if (trim rest).isEmpty then some body else none
  | none => none

/-! ## Statements -/

/-- The truth values. -/
def truthValues : List String := ["true", "false"]

/-- Whether a text without blanks at its ends is a literal. -/
def isLiteral (cs : List Char) : Bool :=
  (quotedAlone? cs).isSome || isNumber cs || truthValues.any fun n => n.toList == cs

/-- The value of a binding. -/
def readValue? (cs : List Char) : Option Value :=
  let cs := trim cs
  if isLiteral cs then some (.literal (String.ofList cs))
  else if isName cs then some (.name (String.ofList cs))
  else none

/-- What is left of `cs` is a name and a value with an equals sign between them. -/
def readBound? (exported : Bool) (keyword : Keyword) (cs : List Char) : Option Statement := do
  let (name, value) ← cut? '=' cs
  if isName (trim name) then
    return .binding exported keyword (String.ofList (trim name)) (← readValue? value)
  else none

/-- A binding. -/
def readBinding? (exported : Bool) (cs : List Char) : Option Statement :=
  match after? "const ".toList cs with
  | some rest => readBound? exported .constant rest
  | none => (after? "let ".toList cs).bind (readBound? exported .variable)

/-- The parts of a text that are not blank, without blanks at their ends. -/
def parts (sep : Char) (cs : List Char) : List (List Char) :=
  ((pieces sep cs).map trim).filter fun p => !p.isEmpty

/-- Names in braces, then a quoted specifier. -/
def readImports? (cs : List Char) : Option Statement := do
  let inside ← after? ['\x7b'] (trim cs)
  let (inside, rest) ← cut? '\x7d' inside
  let names := parts ',' inside
  if names.isEmpty || !names.all isName then none
  else
    let specifier ← after? "from".toList (trim rest)
    return .imports (names.map String.ofList) (String.ofList (← quotedAlone? specifier))

/-- A quoted specifier. -/
def readExportAll? (cs : List Char) : Option Statement :=
  (quotedAlone? cs).map fun s => .exportAll (String.ofList s)

/-- The name of a member with a type behind it. -/
def readMember? (cs : List Char) : Option String := do
  let rest ← after? "export const ".toList cs
  let (name, _) ← cut? ':' rest
  if isName (trim name) then return String.ofList (trim name) else none

/-- A quoted specifier, then members in braces. -/
def readModule? (cs : List Char) : Option Statement := do
  let (specifier, rest) ← quoted? cs
  let body ← (after? ['\x7b'] (trim rest)).bind (before? ['\x7d'])
  return .declareModule (String.ofList specifier) (← (parts ';' body).mapM readMember?)

/-- A name with a type behind it. -/
def readConst? (cs : List Char) : Option Statement := do
  let (name, _) ← cut? ':' cs
  if isName (trim name) then return .declareConst (String.ofList (trim name)) else none

/-- The words that statements begin with, and how what is behind them is read. The first that a
line begins with decides. -/
def forms : List (String × (List Char → Option Statement)) :=
  [("import ", readImports?), ("export * from ", readExportAll?), ("export ", readBinding? true),
    ("declare module ", readModule?), ("declare const ", readConst?), ("", readBinding? false)]

/-- Reads a statement by the first of some forms that fits its beginning. -/
def readForm? (cs : List Char) : List (String × (List Char → Option Statement)) → Option Statement
  | [] => none
  | (lead, read) :: rest =>
    match after? lead.toList cs with
    | some body => read body
    | none => readForm? cs rest

/-- The path of a reference. -/
def readReference? (cs : List Char) : Option String := do
  let rest ← after? "<reference path=".toList (trim cs)
  let (path, rest) ← quoted? rest
  if trim rest = "/>".toList then return String.ofList path else none

/-- A text without the semicolon at its end, and without blanks before that. -/
def unterminated (cs : List Char) : List Char := trimEnd ((before? [';'] cs).getD cs)

/-- What a line can be. -/
inductive Line where
  | statement (s : Statement)
  | comment
  | invalid
deriving DecidableEq

/-- What stands for the compiler giving up. -/
def crashText : String := "#!crash"

/-- **Reads a line** that has no blanks at its ends. -/
def Line.read (cs : List Char) : Line :=
  if cs = crashText.toList then .statement .crash
  else match after? "///".toList cs with
    | some rest =>
      match readReference? rest with
      | some path => .statement (.reference path)
      | none => .comment
    | none =>
      if (after? "//".toList cs).isSome then .comment
      else match readForm? (unterminated cs) forms with
        | some s => .statement s
        | none => .invalid

end CompileCache.Mini
