/-!
# Glob — patterns for paths, and what they match

Paths are matched byte by byte, so a wildcard for one character stands for one byte of it.

* `Glob.Token`: a literal, a class, a wildcard, or a choice between branches.
* `Token.rests`: every rest that a path can have once a token has matched its start.
* `Glob.fits`: whether a pattern fits a whole path.
-/

namespace CompileCache.Glob

/-- A part of a pattern. -/
inductive Token where
  /-- The character itself. -/
  | literal (c : Char)
  /-- Any byte. -/
  | anyByte
  /-- Any bytes. -/
  | star
  /-- A byte in, or outside, one of the ranges. -/
  | charClass (negated : Bool) (ranges : List (Char × Char))
  /-- Nothing, or any bytes up to a slash. -/
  | treeStart
  /-- A slash and any bytes. -/
  | treeEnd
  /-- A slash, or a slash and any bytes up to another slash. -/
  | treeMiddle
  /-- One of several branches. -/
  | choice (branches : List (List Token))

/-- The bytes of a character. -/
def bytesOf (c : Char) : List UInt8 := (String.singleton c).toUTF8.toList

/-- The byte of a slash. -/
def slash : UInt8 := 47

/-- The bytes that a range of a class names: a single character names each of its bytes; two
characters name the bytes of the first but its last, the range from there to the first byte of the
second, and the other bytes of the second. -/
def rangeHas (r : Char × Char) (b : UInt8) : Bool :=
  let lo := bytesOf r.1
  let hi := bytesOf r.2
  if r.1 = r.2 then lo.contains b
  else lo.dropLast.contains b || (lo.getLast?.any (· ≤ b) && hi.head?.any (b ≤ ·)) ||
    hi.tail.contains b

/-- Whether a class accepts a byte. -/
def classHas (negated : Bool) (ranges : List (Char × Char)) (b : UInt8) : Bool :=
  ranges.any (rangeHas · b) != negated

/-- What is left of a path from each of its places on. -/
def suffixes : List UInt8 → List (List UInt8)
  | [] => [[]]
  | b :: bs => (b :: bs) :: suffixes bs

/-- What is left of a path behind each of its slashes. -/
def behindSlashes : List UInt8 → List (List UInt8)
  | [] => []
  | b :: bs => if b = slash then bs :: behindSlashes bs else behindSlashes bs

mutual

/-- Whether a token stands for nothing at all: a choice without a branch that stands for
something. -/
def Token.isBlank : Token → Bool
  | .choice branches => allBlank branches
  | _ => false

/-- Whether a sequence of tokens stands for nothing at all. -/
def sequenceBlank : List Token → Bool
  | [] => true
  | t :: ts => t.isBlank && sequenceBlank ts

/-- Whether every branch stands for nothing at all. -/
def allBlank : List (List Token) → Bool
  | [] => true
  | b :: bs => sequenceBlank b && allBlank bs

end

mutual

/-- The rests that a path can have once a token has matched its start. Branches that stand for
nothing are no choice; without any other branch the choice matches nothing in particular. -/
def Token.rests (bs : List UInt8) : Token → List (List UInt8)
  | .literal c => ((bytesOf c).isPrefixOf? bs).toList
  | .anyByte => (bs.tail?).toList
  | .star => suffixes bs
  | .charClass negated ranges =>
    match bs with
    | [] => []
    | b :: rest => if classHas negated ranges b then [rest] else []
  | .treeStart => bs :: behindSlashes bs
  | .treeEnd =>
    match bs with
    | [] => []
    | b :: rest => if b = slash then suffixes rest else []
  | .treeMiddle =>
    match bs with
    | [] => []
    | b :: rest => if b = slash then rest :: behindSlashes rest else []
  | .choice branches => if allBlank branches then [bs] else branchRests bs branches

/-- The rests once a sequence of tokens has matched the start of one of several texts. -/
def sequenceRests (texts : List (List UInt8)) : List Token → List (List UInt8)
  | [] => texts
  | t :: ts => sequenceRests (texts.flatMap fun bs => t.rests bs).eraseDups ts

/-- The rests once one of the branches has matched the start. -/
def branchRests (bs : List UInt8) : List (List Token) → List (List UInt8)
  | [] => []
  | b :: rest => (if sequenceBlank b then [] else sequenceRests [bs] b) ++ branchRests bs rest

end

/-- Whether a pattern fits a whole path. Two stars alone fit every path. -/
def fits (tokens : List Token) (path : String) : Bool :=
  match tokens with
  | [.treeStart] => true
  | _ => (sequenceRests [path.toUTF8.toList] tokens).any (·.isEmpty)

end CompileCache.Glob
