import CompileCache.Json.Reader

/-!
# Texts — quoted texts read back

* `Named`, `Numbered`, `escape_control`: a control character is written by a letter or by a number.
* **`readText_escape`**: what is written for a character reads back as the character.
* **`readText_quoted`**: what is written for a text reads back as the text, up to its closing mark.
* `quoteChars_append_inj`: no quoted text is the start of another one.
-/

namespace CompileCache.Json

/-! ## Characters -/

/-- A character is written as a backslash and a letter. -/
def Named (c : Char) : Prop := ∃ e, e ≠ 'u' ∧ escape c = ['\\', e] ∧ escaped? e = some c

/-- A character is written as a backslash and its number. -/
def Numbered (c : Char) : Prop :=
  ∃ a b u, escape c = ['\\', 'u', '0', '0', a, b] ∧ unit? '0' '0' a b = some u ∧
    isLow u = false ∧ isHigh u = false ∧ Char.ofNat u = c

theorem escape_control_of_lt : ∀ n < 32,
    (['b', 't', 'n', 'f', 'r'].any fun e =>
      escape (Char.ofNat n) = ['\\', e] ∧ escaped? e = some (Char.ofNat n)) ∨
    (escape (Char.ofNat n) = ['\\', 'u', '0', '0', hexDigit (n / 16), hexDigit (n % 16)] ∧
      unit? '0' '0' (hexDigit (n / 16)) (hexDigit (n % 16)) = some n ∧
      isLow n = false ∧ isHigh n = false) := by
  decide

theorem escape_control {c : Char} (h : c.toNat < 32) : Named c ∨ Numbered c := by
  rcases escape_control_of_lt c.toNat h with hany | ⟨h₁, hu, hl, hh⟩
  · obtain ⟨e, he, hwritten⟩ := List.any_eq_true.1 hany
    obtain ⟨h₁, h₂⟩ := of_decide_eq_true hwritten
    rw [Char.ofNat_toNat] at h₁ h₂
    refine .inl ⟨e, ?_, h₁, h₂⟩
    rintro rfl
    exact absurd he (by decide)
  · rw [Char.ofNat_toNat] at h₁
    exact .inr ⟨_, _, _, h₁, hu, hl, hh, Char.ofNat_toNat c⟩

theorem readText_of_named {r : Rigour} {c : Char} (h : Named c) (rest : List Char) :
    readText r none (escape c ++ rest) = prepend c (readText r none rest) := by
  obtain ⟨e, hu, he, hc⟩ := h
  rw [he]
  change readText r none ('\\' :: e :: rest) = _
  rw [readText.eq_def]
  simp [hu, afterHigh, hc]

theorem readText_of_numbered {r : Rigour} {c : Char} (h : Numbered c) (rest : List Char) :
    readText r none (escape c ++ rest) = prepend c (readText r none rest) := by
  obtain ⟨a, b, u, he, hu, hl, hh, rfl⟩ := h
  rw [he]
  change readText r none ('\\' :: 'u' :: '0' :: '0' :: a :: b :: rest) = _
  rw [readText.eq_def]
  simp [hu, joinUnit, hl, hh]

/-- **What is written for a character reads back as the character.** -/
theorem readText_escape (r : Rigour) (c : Char) (rest : List Char) :
    readText r none (escape c ++ rest) = prepend c (readText r none rest) := by
  by_cases hq : c = '"'
  · exact readText_of_named ⟨'"', by decide, by subst hq; rfl, by subst hq; rfl⟩ rest
  by_cases hb : c = '\\'
  · exact readText_of_named ⟨'\\', by decide, by subst hb; rfl, by subst hb; rfl⟩ rest
  by_cases hc : c.toNat < 32
  · rcases escape_control hc with h | h
    · exact readText_of_named h rest
    · exact readText_of_numbered h rest
  have he : escape c = [c] := by simp [escape, hq, hb, hc]
  rw [he]
  change readText r none (c :: rest) = _
  rw [readText.eq_def]
  simp [hq, hb, hc, afterHigh]

/-! ## Texts -/

theorem readText_escapes (r : Rigour) (cs rest : List Char) :
    readText r none (cs.flatMap escape ++ '"' :: rest) = .ok (some cs, rest) := by
  induction cs with
  | nil =>
    change readText r none ('"' :: rest) = _
    rw [readText.eq_def]
    simp [afterHigh]
  | cons c cs ih =>
    rw [List.flatMap_cons, List.append_assoc, readText_escape, ih]
    rfl

/-- **What is written for a text reads back as the text, up to its closing mark.** -/
theorem readText_quoted (r : Rigour) (s : String) (rest : List Char) :
    readText r none ((quoteChars s ++ rest).tail) = .ok (some s.toList, rest) := by
  rw [← readText_escapes r s.toList rest]
  simp [quoteChars]

/-- No quoted text is the start of another one. -/
theorem quoteChars_append_inj {s s' : String} {rest rest' : List Char}
    (h : quoteChars s ++ rest = quoteChars s' ++ rest') : s = s' ∧ rest = rest' := by
  have hs := readText_quoted .lenient s rest
  rw [h, readText_quoted] at hs
  have he := Except.ok.inj hs
  have hl : s'.toList = s.toList := Option.some.inj (congrArg Prod.fst he)
  exact ⟨(String.toList_inj.1 hl).symm, (congrArg Prod.snd he).symm⟩

end CompileCache.Json
