import CompileCache.Json.Basic
import CompileCache.Json.Fault

/-!
# Numeral — reading numbers

A numeral is a natural number below 2^64 that counts a power of ten. Digits for which it has no
room count only by their place before the point, and not at all behind it. Numerals without fraction
and exponent that fit 64 bits are integers; all others are floats.

* `Numeral`: a sign, a significand and a power of ten.
* `Numeral.float?`: the float next to the significand, scaled by at most 1e308 at a time.
* `readInteger`, `readLong`, `readFraction`, `readExponent`: the parts of a number.
* `readNumber`: the number at the start of a text.
-/

namespace CompileCache.Json

/-- How strictly a text is read. -/
inductive Rigour where
  /-- Every value has to denote something, and nesting is bounded. -/
  | strict
  /-- A well-written value may denote nothing, and nesting is not bounded. -/
  | lenient
deriving DecidableEq

/-- What reading the start of a text gives: a result and the rest of the text, or a fault. -/
abbrev Read (α : Type) := Except Fault (α × List Char)

/-- A number written in decimal: `significand * 10 ^ exponent` with a sign. -/
structure Numeral where
  negative : Bool
  significand : Nat
  exponent : Int

/-- The float next to `10 ^ n`, for `n` at most 308. -/
def tenTo (n : Nat) : Float := Float.ofScientific 1 false n

/-- Scales a float by a power of ten, by at most 1e308 at a time; `none` beyond every float. -/
def scaleFloat : Nat → Float → Int → Option Float
  | 0, _, _ => none
  | steps + 1, f, e =>
    if e.natAbs ≤ 308 then
      if 0 ≤ e then
        let g := f * tenTo e.natAbs
        if g.isInf then none else some g
      else some (f / tenTo e.natAbs)
    else if f == 0.0 then some f
    else if 0 ≤ e then none
    else scaleFloat steps (f / tenTo 308) (e + 308)

/-- The bits of the float that a numeral denotes. Below 2^64, dividing by 1e308 twice gives zero,
so four steps are enough. -/
def Numeral.float? (n : Numeral) : Option UInt64 :=
  (scaleFloat 4 n.significand.toUInt64.toFloat n.exponent).map fun f =>
    (if n.negative then -f else f).toBits

/-- A value beyond every float, ahead of `rest`: the strict rigour refuses it. -/
def outOfRange (r : Rigour) (rest : List Char) : Read Json :=
  match r with
  | .strict => .error (.before .numberOutOfRange rest)
  | .lenient => .ok (.void, rest.dropWhile Char.isDigit)

/-- The float that a numeral ahead of `rest` denotes. -/
def Numeral.finish (r : Rigour) (n : Numeral) (rest : List Char) : Read Json :=
  match n.float? with
  | some bits => .ok (.number (.float bits), rest)
  | none => outOfRange r rest

/-- The value of a decimal digit. -/
def digitValue (c : Char) : Nat := c.toNat - 48

/-- A numeral with its exponent moved. -/
def Numeral.shift (n : Numeral) (down : Bool) (e : Nat) : Numeral :=
  { n with exponent := if down then n.exponent - e else n.exponent + e }

/-- The further digits of an exponent. One that needs more than 31 bits makes the number zero, or
puts it beyond every float. -/
def readExponentDigits (r : Rigour) (n : Numeral) (down : Bool) : Nat → List Char → Read Json
  | e, [] => (n.shift down e).finish r []
  | e, c :: cs =>
    if c.isDigit then
      let e' := e * 10 + digitValue c
      if e' < UInt32.size / 2 then readExponentDigits r n down e' cs
      else if n.significand ≠ 0 ∧ down = false then outOfRange r cs
      else Numeral.finish r ⟨n.negative, 0, 0⟩ (cs.dropWhile Char.isDigit)
    else (n.shift down e).finish r (c :: cs)

/-- The exponent behind its letter. -/
def readExponent (r : Rigour) (n : Numeral) (cs : List Char) : Read Json :=
  let (down, cs) := match cs with
    | '+' :: rest => (false, rest)
    | '-' :: rest => (true, rest)
    | _ => (false, cs)
  match cs with
  | [] => .error (.before .endInValue [])
  | c :: rest =>
    if c.isDigit then readExponentDigits r n down (digitValue c) rest
    else .error (.into .invalidNumber cs)

/-- What may follow the digits of a fraction. -/
def readAfterFraction (r : Rigour) (n : Numeral) (cs : List Char) : Read Json :=
  match cs with
  | 'e' :: rest | 'E' :: rest => readExponent r n rest
  | _ => n.finish r cs

/-- The digits behind a point; there has to be one. -/
def readFraction (r : Rigour) : Numeral → Bool → List Char → Read Json
  | _, false, [] => .error (.into .endInValue [])
  | n, true, [] => readAfterFraction r n []
  | n, some?, c :: cs =>
    if c.isDigit then
      let s := n.significand * 10 + digitValue c
      if s < UInt64.size then readFraction r ⟨n.negative, s, n.exponent - 1⟩ true cs
      else readAfterFraction r n ((c :: cs).dropWhile Char.isDigit)
    else if some? then readAfterFraction r n (c :: cs)
    else .error (.into .invalidNumber (c :: cs))

/-- The digits before the point that have no room in the significand. -/
def readLong (r : Rigour) : Numeral → List Char → Read Json
  | n, [] => n.finish r []
  | n, c :: cs =>
    if c.isDigit then readLong r ⟨n.negative, n.significand, n.exponent + 1⟩ cs
    else if c = '.' then readFraction r n false cs
    else readAfterFraction r n (c :: cs)

/-- An integer that fits 64 bits, or else a float. -/
def integer (negative : Bool) (s : Nat) (rest : List Char) : Read Json :=
  if negative = false then .ok (.number (.natural s.toUInt64), rest)
  else if s ≠ 0 ∧ s ≤ UInt64.size / 2 then .ok (.number (.negative s.toUInt64), rest)
  else Numeral.finish .lenient ⟨true, s, 0⟩ rest

/-- The further digits of an integer. -/
def readInteger (r : Rigour) (negative : Bool) : Nat → List Char → Read Json
  | s, [] => integer negative s []
  | s, c :: cs =>
    if c.isDigit then
      let s' := s * 10 + digitValue c
      if s' < UInt64.size then readInteger r negative s' cs
      else readLong r ⟨negative, s, 0⟩ (c :: cs)
    else if c = '.' then readFraction r ⟨negative, s, 0⟩ false cs
    else if c = 'e' ∨ c = 'E' then readExponent r ⟨negative, s, 0⟩ cs
    else integer negative s (c :: cs)

/-- The number at the start of a text, behind its sign. A leading zero stands alone. -/
def readNumber (r : Rigour) (negative : Bool) (cs : List Char) : Read Json :=
  match cs with
  | [] => .error (.before .endInValue [])
  | c :: rest =>
    if c = '0' then
      match rest with
      | d :: _ =>
        if d.isDigit then .error (.into .invalidNumber rest) else readInteger r negative 0 rest
      | [] => readInteger r negative 0 rest
    else if c.isDigit then readInteger r negative (digitValue c) rest
    else .error (.into .invalidNumber cs)

end CompileCache.Json
