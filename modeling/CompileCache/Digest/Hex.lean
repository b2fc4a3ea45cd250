/-!
# Hex — bytes as pairs of lower-case hexadecimal digits

* `digit`, `ofByte`, `ofBytes`: writing.
* `value?`, `toBytes?`: reading.
* `slash_notMem_ofBytes`: no digit is a slash.
-/

namespace CompileCache.Hex

/-- The digit for a value below sixteen. -/
def digit (n : UInt8) : Char := if n < 10 then Char.ofUInt8 (48 + n) else Char.ofUInt8 (87 + n)

/-- The two digits of a byte, the high one first. -/
def ofByte (b : UInt8) : List Char := [digit (b >>> 4), digit (b &&& 15)]

/-- The digits of a list of bytes. -/
def ofBytes (bs : List UInt8) : List Char := bs.flatMap ofByte

/-- The value of a digit, in either case. -/
def value? (c : Char) : Option UInt8 :=
  if '0' ≤ c ∧ c ≤ '9' then some (c.toNat - 48).toUInt8
  else if 'a' ≤ c ∧ c ≤ 'f' then some (c.toNat - 87).toUInt8
  else if 'A' ≤ c ∧ c ≤ 'F' then some (c.toNat - 55).toUInt8
  else none

/-- The bytes that pairs of digits stand for. -/
def toBytes? : List Char → Option (List UInt8)
  | [] => some []
  | [_] => none
  | c :: d :: rest => do
    let hi ← value? c
    let lo ← value? d
    let bs ← toBytes? rest
    return (hi <<< 4 ||| lo) :: bs

theorem slash_notMem_ofByte (b : UInt8) : '/' ∉ ofByte b := by
  have h : ∀ n : Fin 256, '/' ∉ ofByte (UInt8.ofFin n) := by decide +kernel
  exact h b.toFin

theorem slash_notMem_ofBytes (bs : List UInt8) : '/' ∉ ofBytes bs := by
  intro h
  obtain ⟨b, -, hb⟩ := List.mem_flatMap.1 h
  exact slash_notMem_ofByte b hb

theorem length_ofBytes (bs : List UInt8) : (ofBytes bs).length = 2 * bs.length := by
  induction bs with
  | nil => rfl
  | cons b bs ih =>
    rw [ofBytes, List.flatMap_cons, List.length_append, List.length_cons, Nat.mul_succ,
      Nat.add_comm]
    exact congrArg (· + 2) ih

end CompileCache.Hex
