import CompileCache.Decimal.Shortest
import CompileCache.Json.Basic

/-!
# Printer — JSON texts

* `quoteChars`, `quote`: a text between quotation marks. Quotation marks, backslashes and control
  characters are escaped, nothing else.
* `compact`: a value without any blank.
* `pretty`: a value over several lines, indented by two blanks a level.
-/

namespace CompileCache.Json

/-- A hexadecimal digit in lower case. -/
def hexDigit (n : Nat) : Char := (Nat.digitChar n)

/-- How a character is written inside quotation marks. -/
def escape (c : Char) : List Char :=
  if c = '"' then ['\\', '"']
  else if c = '\\' then ['\\', '\\']
  else if c.toNat < 32 then
    if c = '\x08' then ['\\', 'b']
    else if c = '\t' then ['\\', 't']
    else if c = '\n' then ['\\', 'n']
    else if c = '\x0c' then ['\\', 'f']
    else if c = '\r' then ['\\', 'r']
    else ['\\', 'u', '0', '0', hexDigit (c.toNat / 16), hexDigit (c.toNat % 16)]
  else [c]

/-- A text between quotation marks, as characters. -/
def quoteChars (s : String) : List Char := '"' :: s.toList.flatMap escape ++ ['"']

/-- A text between quotation marks. -/
def quote (s : String) : String := String.ofList (quoteChars s)

/-- The characters of a number. -/
def Number.chars : Number → List Char
  | .natural n => Nat.toDigits 10 n.toNat
  | .negative n => '-' :: Nat.toDigits 10 n.toNat
  | .float bits => (Decimal.text bits).toList

/-! ## On one line -/

mutual

/-- The characters of a value without blanks. -/
def compactChars : Json → List Char
  | .null => ['n', 'u', 'l', 'l']
  | .bool true => ['t', 'r', 'u', 'e']
  | .bool false => ['f', 'a', 'l', 's', 'e']
  | .number n => n.chars
  | .text s => quoteChars s
  | .array items => '[' :: compactItems items
  | .object members => '\x7b' :: compactMembers members
  | .void => []

/-- The elements of an array and its closing bracket. -/
def compactItems : List Json → List Char
  | [] => [']']
  | [j] => compactChars j ++ [']']
  | j :: rest => compactChars j ++ ',' :: compactItems rest

/-- The members of an object and its closing brace. -/
def compactMembers : List (String × Json) → List Char
  | [] => ['\x7d']
  | [(k, j)] => quoteChars k ++ ':' :: compactChars j ++ ['\x7d']
  | (k, j) :: rest => quoteChars k ++ ':' :: compactChars j ++ ',' :: compactMembers rest

end

/-- The text of a value without blanks. -/
def compact (j : Json) : String := String.ofList j.compactChars

/-! ## Over several lines -/

/-- A line break and the indentation of a level. -/
def newline (level : Nat) : List Char := '\n' :: List.replicate (2 * level) ' '

mutual

/-- The characters of a value that stands on a level. -/
def prettyChars (level : Nat) : Json → List Char
  | .array [] => ['[', ']']
  | .array (j :: rest) => '[' :: prettyItems level (j :: rest)
  | .object [] => ['\x7b', '\x7d']
  | .object (m :: rest) => '\x7b' :: prettyMembers level (m :: rest)
  | .null => ['n', 'u', 'l', 'l']
  | .bool true => ['t', 'r', 'u', 'e']
  | .bool false => ['f', 'a', 'l', 's', 'e']
  | .number n => n.chars
  | .text s => quoteChars s
  | .void => []

/-- The elements of an array on `level`, each on its own line, and the closing bracket. -/
def prettyItems (level : Nat) : List Json → List Char
  | [] => newline level ++ [']']
  | [j] => newline (level + 1) ++ prettyChars (level + 1) j ++ newline level ++ [']']
  | j :: rest => newline (level + 1) ++ prettyChars (level + 1) j ++ ',' :: prettyItems level rest

/-- The members of an object on `level`, each on its own line, and the closing brace. -/
def prettyMembers (level : Nat) : List (String × Json) → List Char
  | [] => newline level ++ ['\x7d']
  | [(k, j)] =>
    newline (level + 1) ++ quoteChars k ++ ':' :: ' ' :: prettyChars (level + 1) j ++
      newline level ++ ['\x7d']
  | (k, j) :: rest =>
    newline (level + 1) ++ quoteChars k ++ ':' :: ' ' :: prettyChars (level + 1) j ++
      ',' :: prettyMembers level rest

end

/-- The text of a value over several lines. -/
def pretty (j : Json) : String := String.ofList (j.prettyChars 0)

end CompileCache.Json
