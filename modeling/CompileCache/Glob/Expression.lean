import CompileCache.Glob.Basic

/-!
# Expression — patterns as regular expressions over bytes

* `Token.expression`, `expression`: the regular expression that says what a pattern matches.
* `Token.parts`, `Token.depth`: how many parts of a sequence a token gives, and how deep their
  operators nest.
* `depth`: how deep the operators of a whole expression nest; at most `maxDepth` levels are allowed.
-/

namespace CompileCache.Glob

/-! ## The text -/

/-- The characters that mean something in a regular expression. -/
def operators : List Char :=
  ['\\', '.', '+', '*', '?', '(', ')', '|', '[', ']', '\x7b', '\x7d', '^', '$', '#', '&', '-', '~']

/-- The two lower-case hexadecimal digits of a byte. -/
def byteDigits (b : UInt8) : List Char :=
  [Nat.digitChar (b.toNat / 16), Nat.digitChar (b.toNat % 16)]

/-- A character that stands for itself; beyond ASCII it is written byte by byte. -/
def escapeLiteral (c : Char) : String :=
  if c.toNat < 128 then String.ofList (if operators.contains c then ['\\', c] else [c])
  else String.ofList ((bytesOf c).flatMap fun b => '\\' :: 'x' :: byteDigits b)

/-- A range of a class. -/
def rangeExpression (r : Char × Char) : String :=
  if r.1 = r.2 then escapeLiteral r.1 else escapeLiteral r.1 ++ "-" ++ escapeLiteral r.2

mutual

/-- The regular expression of a token. -/
def Token.expression : Token → String
  | .literal c => escapeLiteral c
  | .anyByte => "."
  | .star => ".*"
  | .charClass negated ranges =>
    (if negated then "[^" else "[") ++ String.join (ranges.map rangeExpression) ++ "]"
  | .treeStart => "(?:/?|.*/)"
  | .treeEnd => "/.*"
  | .treeMiddle => "(?:/|/.*/)"
  | .choice branches =>
    if allBlank branches then ""
    else "(?:" ++ "|".intercalate (branchExpressions branches) ++ ")"

/-- The regular expression of a sequence of tokens. -/
def sequenceExpression : List Token → String
  | [] => ""
  | t :: ts => t.expression ++ sequenceExpression ts

/-- The regular expressions of the branches that stand for something. -/
def branchExpressions : List (List Token) → List String
  | [] => []
  | b :: rest =>
    if sequenceBlank b then branchExpressions rest
    else sequenceExpression b :: branchExpressions rest

end

/-- The regular expression of a whole pattern. -/
def expression (tokens : List Token) : String :=
  let body := match tokens with
    | [.treeStart] => ".*"
    | _ => sequenceExpression tokens
  "(?-u)^" ++ body ++ "$"

/-! ## Nesting -/

/-- How many members of a class a range gives. -/
def rangeMembers (r : Char × Char) : Nat :=
  if r.1 = r.2 then (bytesOf r.1).length else (bytesOf r.1).length + (bytesOf r.2).length - 1

/-- How many parts of a sequence a token gives. -/
def Token.parts : Token → Nat
  | .literal c => (bytesOf c).length
  | .treeEnd => 2
  | .choice branches => if allBlank branches then 0 else 1
  | _ => 1

/-- The level that a sequence of several parts takes. -/
def sequenceLevel (tokens : List Token) : Nat :=
  if tokens.foldr (fun t n => t.parts + n) 0 < 2 then 0 else 1

/-- The level that several branches take; branches that stand for nothing do not count. -/
def branchLevel (branches : List (List Token)) : Nat :=
  if (branches.filter fun b => !sequenceBlank b).length < 2 then 0 else 1

mutual

/-- How deep the operators of a token nest. -/
def Token.depth : Token → Nat
  | .literal _ | .anyByte => 0
  | .star | .treeEnd => 1
  | .charClass _ ranges => if ranges.foldr (fun r n => rangeMembers r + n) 0 < 2 then 1 else 2
  | .treeStart | .treeMiddle => 4
  | .choice branches =>
    if allBlank branches then 0 else 1 + branchLevel branches + deepestBranch branches

/-- The depth of the deepest token. -/
def deepest : List Token → Nat
  | [] => 0
  | t :: ts => max t.depth (deepest ts)

/-- The depth of the deepest branch. -/
def deepestBranch : List (List Token) → Nat
  | [] => 0
  | b :: rest => max (sequenceLevel b + deepest b) (deepestBranch rest)

end

/-- How deep the operators of the expression of a whole pattern nest. Its ends always make it a
sequence. -/
def depth (tokens : List Token) : Nat :=
  match tokens with
  | [.treeStart] => 2
  | _ => 1 + deepest tokens

/-- Operators may nest this deep. -/
def maxDepth : Nat := 250

/-- Whether the operators of a pattern nest too deep. -/
def isTooDeep (tokens : List Token) : Bool := maxDepth < depth tokens

end CompileCache.Glob
