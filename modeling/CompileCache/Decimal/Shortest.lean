/-!
# Shortest — the fewest decimal digits that name a binary float

A finite positive float is `m * 2 ^ q`. The reals that round to it form an interval around it,
whose ends belong to it iff `m` is even.

* `Grid.of`: the interval scaled so that the decimal numbers with `d` digits are the integers.
* `Grid.pick?`: of the two integers around the float those inside the interval, the nearer first.
* `digits`: the least `d` from one to seventeen whose grid has a hit.
* `text`: the digits laid out with a point or an exponent.
-/

namespace CompileCache.Decimal

/-- A float and the reals that round to it, as multiples of the unit `num / den`. -/
structure Grid where
  num : Nat
  den : Nat
  low : Nat
  mid : Nat
  high : Nat
  closed : Bool

/-- `x * 2 ^ e` as a fraction. -/
def scale2 (e : Int) (x : Nat × Nat) : Nat × Nat :=
  if 0 ≤ e then (x.1 <<< e.toNat, x.2) else (x.1, x.2 <<< (-e).toNat)

/-- `x * 10 ^ e` as a fraction. -/
def scale10 (e : Int) (x : Nat × Nat) : Nat × Nat :=
  if 0 ≤ e then (x.1 * Nat.pow 10 e.toNat, x.2) else (x.1, x.2 * Nat.pow 10 (-e).toNat)

/-- The number of decimal digits of a natural number. -/
def width (n : Nat) : Nat := (Nat.toDigits 10 n).length

/-- The exponent of the leading decimal digit of a positive fraction. -/
def leading (x : Nat × Nat) : Int :=
  let e : Int := width x.1 - width x.2
  let y := scale10 (-e) x
  if y.2 ≤ y.1 then e else e - 1

/-- The grid of the float `m * 2 ^ q` on which the integers are the multiples of `10 ^ e`. The gap
below a power of two is half the gap above it. -/
def Grid.of (m : Nat) (q : Int) (narrow : Bool) (e : Int) : Grid :=
  let unit := scale10 (-e) (scale2 (q - 2) (1, 1))
  ⟨unit.1, unit.2, if narrow then 4 * m - 1 else 4 * m - 2, 4 * m, 4 * m + 2, m % 2 = 0⟩

/-- Whether an integer of the grid rounds to the float. -/
def Grid.covers (g : Grid) (c : Nat) : Bool :=
  if g.closed then g.low * g.num ≤ c * g.den && c * g.den ≤ g.high * g.num
  else g.low * g.num < c * g.den && c * g.den < g.high * g.num

/-- The integer that is next to the float and rounds to it; a tie goes to the even one. -/
def Grid.pick? (g : Grid) : Option Nat :=
  let lo := g.mid * g.num / g.den
  let below := g.mid * g.num - lo * g.den
  let above := (lo + 1) * g.den - g.mid * g.num
  match g.covers lo, g.covers (lo + 1) with
  | true, true => some (if below < above || (below = above && lo % 2 = 0) then lo else lo + 1)
  | true, false => some lo
  | false, true => some (lo + 1)
  | false, false => none

/-- A number and the power of ten it counts, without zeros at the end of the number. -/
def strip : Nat → Nat → Int → Nat × Int
  | 0, n, e => (n, e)
  | fuel + 1, n, e => if n ≠ 0 ∧ n % 10 = 0 then strip fuel (n / 10) (e + 1) else (n, e)

/-- The fewest digits that name `m * 2 ^ q`, and the power of ten that the last of them counts. -/
def digits (m : Nat) (q : Int) (narrow : Bool) : Nat × Int :=
  let top := leading (scale2 q (m, 1))
  let hit := (List.range 17).findSome? fun (d : Nat) =>
    let e : Int := top - d
    (Grid.of m q narrow e).pick?.map fun c => (c, e)
  let r := hit.getD (0, 0)
  strip 20 r.1 r.2

/-- The exponent of a number in scientific form; it always has its sign. -/
def exponentText (e : Int) : String := if 0 ≤ e then "+" ++ toString e else toString e

/-- Digits with a point where the number is of moderate size, else with an exponent. Numbers from
1e-5 up to below 1e16 are of moderate size. -/
def layout (n : Nat) (e : Int) : String :=
  let s := Nat.toDigits 10 n
  let point : Int := s.length + e
  if 0 ≤ e ∧ point ≤ 16 then String.ofList (s ++ List.replicate e.toNat '0' ++ ['.', '0'])
  else if 0 < point ∧ point ≤ 16 then
    String.ofList (s.take point.toNat ++ '.' :: s.drop point.toNat)
  else if -5 < point ∧ point ≤ 0 then
    String.ofList ('0' :: '.' :: List.replicate (-point).toNat '0' ++ s)
  else
    let exponent := exponentText (point - 1)
    match s with
    | [c] => c.toString ++ "e" ++ exponent
    | c :: rest => c.toString ++ "." ++ String.ofList rest ++ "e" ++ exponent
    | [] => ""

/-- The text of the finite float with the given bits. -/
def text (bits : UInt64) : String :=
  let sign := if bits >>> 63 = 0 then "" else "-"
  let exponent := ((bits >>> 52) &&& 0x7FF).toNat
  let fraction := (bits &&& 0xFFFFFFFFFFFFF).toNat
  if exponent = 0 ∧ fraction = 0 then sign ++ "0.0"
  else
    let m := if exponent = 0 then fraction else fraction + 0x10000000000000
    let q : Int := (if exponent = 0 then 1 else exponent) - 1075
    let r := digits m q (fraction = 0 && 1 < exponent)
    sign ++ layout r.1 r.2

end CompileCache.Decimal
