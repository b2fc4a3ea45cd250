import CompileCache.Proofs.Fingerprint.Keys
import Mathlib.Tactic.SplitIfs

/-!
# ByteOrder — the order of texts is the order of their bytes

* `encodeChar_lt`: of two characters the greater has the greater bytes, whatever follows.
* **`lt_iff_bytes_lt`**: a text comes before another one if and only if its bytes do.
-/

namespace CompileCache.Text

theorem toList_toUTF8 (s : String) :
    s.toUTF8.toList = s.toList.flatMap String.utf8EncodeChar := by
  have h : s.toUTF8 = s.toList.utf8Encode := by
    conv => lhs; rw [← String.ofList_toList (s := s)]
    exact String.toByteArray_ofList
  rw [toList_eq_data, h, List.utf8Encode]
  simp

theorem eq_digits (n : Nat) :
    n = 262144 * (n / 262144) + 4096 * (n / 4096 % 64) + 64 * (n / 64 % 64) + n % 64 := by
  omega

theorem digits_lt {m n : Nat} (h : m < n) : m / 262144 < n / 262144 ∨ m / 262144 = n / 262144 ∧
    (m / 4096 % 64 < n / 4096 % 64 ∨ m / 4096 % 64 = n / 4096 % 64 ∧
      (m / 64 % 64 < n / 64 % 64 ∨ m / 64 % 64 = n / 64 % 64 ∧ m % 64 < n % 64)) := by
  have hm := eq_digits m
  have hn := eq_digits n
  have hbound : ∀ k, k % 64 < 64 := fun k => Nat.mod_lt k (by decide)
  have hn₁ := hbound n
  have hn₂ := hbound (n / 64)
  have hn₃ := hbound (n / 4096)
  generalize m / 262144 = a, m / 4096 % 64 = b, m / 64 % 64 = c, m % 64 = d at *
  generalize n / 262144 = a', n / 4096 % 64 = b', n / 64 % 64 = c', n % 64 = d' at *
  omega

/-- Of two characters the greater has the greater bytes, whatever follows: characters with more
bytes begin with a greater one, and with as many bytes the first difference decides. -/
theorem encodeChar_lt {c d : Char} (h : c < d) (l l' : List UInt8) :
    String.utf8EncodeChar c ++ l < String.utf8EncodeChar d ++ l' := by
  have hlt : c.val.toNat < d.val.toNat := h
  have hd : d.val.toNat < 0x110000 := by
    have := d.valid
    simp only [UInt32.isValidChar, Nat.isValidChar] at this
    omega
  unfold String.utf8EncodeChar
  generalize c.val.toNat = m at *
  generalize d.val.toNat = n at *
  dsimp only
  by_cases hm : m ≤ 65535
  · split_ifs <;>
      simp only [List.cons_append, List.nil_append, List.cons_lt_cons_iff, UInt8.lt_iff_toNat_lt,
        ← UInt8.toNat_inj, UInt8.toNat_ofNat'] <;>
      omega
  · -- both have four bytes, one for each digit
    have hdigits := digits_lt hlt
    rw [if_neg (by omega), if_neg (by omega), if_neg hm, if_neg (by omega), if_neg (by omega),
      if_neg (by omega)]
    simp only [List.cons_append, List.nil_append, List.cons_lt_cons_iff, UInt8.lt_iff_toNat_lt,
      ← UInt8.toNat_inj, UInt8.toNat_ofNat']
    simp (disch := omega) only [Nat.mod_eq_of_lt, Nat.add_lt_add_iff_right,
      Nat.add_right_cancel_iff]
    exact hdigits.imp_right <| And.imp_right <| Or.imp_right <| And.imp_right <| Or.imp_right <|
      And.imp_right .inl

theorem encodeChars_lt {cs ds : List Char} (h : cs < ds) :
    cs.flatMap String.utf8EncodeChar < ds.flatMap String.utf8EncodeChar := by
  induction cs generalizing ds with
  | nil =>
    cases ds with
    | nil => exact absurd h (List.lt_irrefl _)
    | cons d ds =>
      obtain ⟨b, bs, hb⟩ := List.exists_cons_of_ne_nil (String.utf8EncodeChar_ne_nil (c := d))
      rw [List.flatMap_nil, List.flatMap_cons, hb]
      exact List.nil_lt_cons _ _
  | cons c cs ih =>
    cases ds with
    | nil => exact absurd h (List.not_lt_nil _)
    | cons d ds =>
      rw [List.flatMap_cons, List.flatMap_cons]
      rcases List.cons_lt_cons_iff.1 h with h | ⟨rfl, h⟩
      · exact encodeChar_lt h _ _
      · exact List.append_left_lt (ih (List.cons_lt_cons_self.1 h))

/-- **A text comes before another one if and only if its bytes do.** -/
theorem lt_iff_bytes_lt {s t : String} : s < t ↔ s.toUTF8.toList < t.toUTF8.toList := by
  have hlt : ∀ {s t : String}, s < t → s.toUTF8.toList < t.toUTF8.toList := fun h => by
    rw [toList_toUTF8, toList_toUTF8]
    exact encodeChars_lt (String.lt_iff.1 h)
  refine ⟨hlt, fun h => ?_⟩
  refine Decidable.byContradiction fun hn => ?_
  by_cases hts : t < s
  · exact List.lt_asymm h (hlt hts)
  · cases KeyMap.eq_of_not_lt hn hts
    exact List.lt_irrefl _ h

end CompileCache.Text
