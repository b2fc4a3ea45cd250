import CompileCache.Proofs.Json.Texts

/-!
# Digits — printed integers read back

* `Stops`: a text that no number goes on into.
* `readInteger_append`: the digits ahead of such a text are read to their value.
* **`readNumber_toDigits`**: what is written for a natural number is read as that number.
-/

namespace CompileCache.Json

/-- No number goes on into a text. -/
def Stops (cs : List Char) : Prop :=
  ∀ c ∈ cs.head?, c.isDigit = false ∧ c ≠ '.' ∧ c ≠ 'e' ∧ c ≠ 'E'

theorem stops_cons {c : Char} (h : c.isDigit = false) (hp : c ≠ '.') (he : c ≠ 'e') (hE : c ≠ 'E')
    (rest : List Char) : Stops (c :: rest) := by
  intro d hd
  cases Option.some.inj hd
  exact ⟨h, hp, he, hE⟩

theorem le_ofDigitChars (ds : List Char) (s : Nat) : s ≤ Nat.ofDigitChars 10 ds s := by
  induction ds generalizing s with
  | nil => exact Nat.le_refl s
  | cons c ds ih =>
    rw [Nat.ofDigitChars_cons]
    exact Nat.le_trans (by omega) (ih _)

/-- **Digits are read to their value**, if that fits 64 bits. -/
theorem readInteger_append (r : Rigour) (negative : Bool) {ds rest : List Char} {s : Nat}
    (hd : ∀ c ∈ ds, c.isDigit = true) (hs : Nat.ofDigitChars 10 ds s < UInt64.size)
    (hr : Stops rest) :
    readInteger r negative s (ds ++ rest) = integer negative (Nat.ofDigitChars 10 ds s) rest := by
  induction ds generalizing s with
  | nil =>
    rw [Nat.ofDigitChars_nil, List.nil_append]
    cases rest with
    | nil => rfl
    | cons c rest =>
      obtain ⟨hdigit, hpoint, he, hE⟩ := hr c rfl
      simp [readInteger, hdigit, hpoint, he, hE]
  | cons c ds ih =>
    rw [Nat.ofDigitChars_cons] at hs ⊢
    have hdigit := hd c List.mem_cons_self
    have hle := le_ofDigitChars ds (10 * s + (c.toNat - '0'.toNat))
    have hvalue : s * 10 + digitValue c = 10 * s + (c.toNat - '0'.toNat) := by
      rw [Nat.mul_comm]
      rfl
    rw [List.cons_append, readInteger, if_pos hdigit]
    dsimp only
    rw [hvalue, if_pos (by omega)]
    exact ih (fun d hm => hd d (List.mem_cons_of_mem c hm)) hs

theorem exists_toDigits (n : Nat) : ∃ c ds, Nat.toDigits 10 n = c :: ds ∧ (c = '0' → n = 0) := by
  induction n using Nat.strongRecOn with
  | ind n ih =>
    rw [Nat.toDigits_eq_if (by decide)]
    split
    · next hn =>
      refine ⟨_, [], rfl, ?_⟩
      have hzero : ∀ m < 10, m.digitChar = '0' → m = 0 := by decide
      exact hzero n hn
    · next hn =>
      obtain ⟨c, ds, hds, hc⟩ := ih (n / 10) (by omega)
      refine ⟨c, ds ++ [(n % 10).digitChar], by rw [hds]; rfl, fun h => ?_⟩
      have := hc h
      omega

/-- **What is written for a natural number is read as that number.** -/
theorem readNumber_toDigits (r : Rigour) (negative : Bool) {n : Nat} (hn : n < UInt64.size)
    {rest : List Char} (hr : Stops rest) :
    readNumber r negative (Nat.toDigits 10 n ++ rest) = integer negative n rest := by
  obtain ⟨c, ds, hds, hzero⟩ := exists_toDigits n
  have hdigits : ∀ d ∈ c :: ds, d.isDigit = true := fun d hd =>
    Nat.isDigit_of_mem_toDigits (by decide) (by decide) (hds ▸ hd)
  have hvalue : Nat.ofDigitChars 10 ds (digitValue c) = n := by
    have h := Nat.ofDigitChars_ten_toDigits (n := n)
    rwa [hds, Nat.ofDigitChars_cons, Nat.mul_zero, Nat.zero_add] at h
  have hread := readInteger_append r negative (s := digitValue c)
    (fun d hd => hdigits d (List.mem_cons_of_mem c hd)) (by rwa [hvalue]) hr
  rw [hvalue] at hread
  rw [hds, List.cons_append]
  unfold readNumber
  dsimp only
  by_cases hc : c = '0'
  · cases hzero hc
    cases hds
    rw [if_pos hc]
    cases rest with
    | nil => exact hread
    | cons d rest =>
      dsimp only [List.nil_append]
      rw [if_neg (by rw [(hr d rfl).1]; decide)]
      exact hread
  · rw [if_neg hc, if_pos (hdigits c List.mem_cons_self)]
    exact hread

end CompileCache.Json
