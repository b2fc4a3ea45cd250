import CompileCache.Proofs.Mini.Lines

/-!
# Numerals — decimal numbers and the names that are read as numbers

* `Sign`, `Exponent`, `Numeral`: the parts of a written decimal number.
* **`Numeral.isNumber_chars`**: a decimal number is read as one, whatever parts it has.
* `namesUnbounded`, **`isLiteral_name`**: a name is read as a literal exactly if it is, in whatever
  case, the name of what is no finite number.
-/

namespace CompileCache.Mini

open Text

variable {cs : List Char}

/-! ## Decimal numbers -/

/-- The sign in front of digits, if there is one. -/
inductive Sign where
  | none
  | plus
  | minus

/-- A sign as it is written. -/
def Sign.chars : Sign → List Char
  | none => []
  | plus => ['+']
  | minus => ['-']

/-- The exponent of a number. -/
structure Exponent where
  mark : Char
  sign : Sign
  digits : List Char
  isMark : mark = 'e' ∨ mark = 'E'
  isDigits : isDigits digits = true

/-- An exponent as it is written. -/
def Exponent.chars (e : Exponent) : List Char := e.mark :: (e.sign.chars ++ e.digits)

/-- A decimal number: it may lack the digits on one side of its point, but not on both. -/
structure Numeral where
  sign : Sign
  whole : List Char
  fraction : Option (List Char)
  exponent : Option Exponent
  wholeDigits : ∀ c ∈ whole, c.isDigit = true
  fractionDigits : ∀ part ∈ fraction, ∀ c ∈ part, c.isDigit = true
  someDigit : whole = [] → ∃ part ∈ fraction, part ≠ []

namespace Numeral

/-- The exponent of a number as it is written, if it has one. -/
def exponentChars (n : Numeral) : List Char := (n.exponent.map Exponent.chars).getD []

/-- What stands behind the whole digits of a number. -/
def tail (n : Numeral) : List Char :=
  match n.fraction with
  | none => n.exponentChars
  | some part => '.' :: (part ++ n.exponentChars)

/-- A number as it is written. -/
def chars (n : Numeral) : List Char := n.sign.chars ++ (n.whole ++ n.tail)

end Numeral

theorem unsigned_append (s : Sign) (h : ∀ c ∈ cs.head?, c ≠ '+' ∧ c ≠ '-') :
    unsigned (s.chars ++ cs) = cs := by
  cases s with
  | none =>
    cases cs with
    | nil => rfl
    | cons c t =>
      obtain ⟨hplus, hminus⟩ := h c rfl
      unfold Sign.chars unsigned
      rw [List.nil_append]
      split
      · next heq => exact absurd (List.cons.inj heq).1 hplus
      · next heq => exact absurd (List.cons.inj heq).1 hminus
      · rfl
  | plus => rfl
  | minus => rfl

theorem ne_sign_of_isDigit {c : Char} (h : c.isDigit = true) : c ≠ '+' ∧ c ≠ '-' := by
  constructor <;> rintro rfl <;> cases h

theorem Exponent.isExponent_chars (e : Exponent) : isExponent e.chars = true := by
  have hdigits := e.isDigits
  have hunsigned : unsigned (e.sign.chars ++ e.digits) = e.digits :=
    unsigned_append e.sign fun c hc => by
      simp only [Mini.isDigits, Bool.and_eq_true, List.all_eq_true] at hdigits
      exact ne_sign_of_isDigit (hdigits.2 c (List.mem_of_mem_head? hc))
  rw [Exponent.chars, isExponent, hunsigned, hdigits, Bool.and_true]
  simpa using e.isMark

theorem span_digits {ds rest : List Char} (hds : ∀ c ∈ ds, c.isDigit = true)
    (hrest : ∀ c ∈ rest.head?, c.isDigit = false) :
    (ds ++ rest).takeWhile Char.isDigit = ds ∧ (ds ++ rest).dropWhile Char.isDigit = rest := by
  rw [List.takeWhile_append_of_pos hds, List.dropWhile_append_of_pos hds]
  cases rest with
  | nil => exact ⟨List.append_nil ds, rfl⟩
  | cons c t =>
    have hc : ¬c.isDigit = true := by rw [hrest c rfl]; exact Bool.false_ne_true
    rw [List.takeWhile_cons_of_neg hc, List.dropWhile_cons_of_neg hc]
    exact ⟨List.append_nil ds, rfl⟩

namespace Numeral

variable (n : Numeral)

theorem isExponent_exponentChars : isExponent n.exponentChars = true := by
  unfold exponentChars
  cases n.exponent with
  | none => rfl
  | some e => exact e.isExponent_chars

theorem head_exponentChars {c : Char} (h : c ∈ n.exponentChars.head?) : c = 'e' ∨ c = 'E' := by
  unfold exponentChars at h
  cases he : n.exponent with
  | none => rw [he] at h; cases h
  | some e => rw [he] at h; cases h; exact e.isMark

theorem not_isDigit_head_exponentChars : ∀ c ∈ n.exponentChars.head?, c.isDigit = false := by
  intro c hc
  rcases n.head_exponentChars hc with rfl | rfl <;> rfl

theorem not_isDigit_head_tail : ∀ c ∈ n.tail.head?, c.isDigit = false := by
  unfold tail
  cases n.fraction with
  | none => exact n.not_isDigit_head_exponentChars
  | some part =>
    intro c hc
    cases hc
    rfl

theorem isDecimal_unsigned : isDecimal (n.whole ++ n.tail) = true := by
  obtain ⟨htake, hdrop⟩ := span_digits n.wholeDigits n.not_isDigit_head_tail
  unfold isDecimal
  rw [htake, hdrop]
  have hsome := n.someDigit
  unfold tail
  cases hf : n.fraction with
  | none =>
    rw [hf] at hsome
    have hwhole : n.whole.isEmpty = false := List.isEmpty_eq_false_iff.2 fun h => by
      obtain ⟨part, hpart, -⟩ := hsome h
      cases hpart
    dsimp only
    split
    · next heq =>
      rcases n.head_exponentChars (by rw [heq]; rfl) with h | h <;> cases h
    · rw [hwhole, n.isExponent_exponentChars]
      rfl
  | some part =>
    have hpart : ∀ c ∈ part, c.isDigit = true := n.fractionDigits part hf
    obtain ⟨htake', hdrop'⟩ := span_digits hpart n.not_isDigit_head_exponentChars
    have hdigit : (n.whole.isEmpty && part.isEmpty) = false := by
      rw [Bool.and_eq_false_iff, List.isEmpty_eq_false_iff, List.isEmpty_eq_false_iff,
        ← not_and_or]
      rintro ⟨hwhole, rfl⟩
      obtain ⟨part', hpart', hne⟩ := hsome hwhole
      exact hne (Option.some.inj (hf.symm.trans hpart')).symm
    dsimp only
    split
    · next rest heq =>
      obtain rfl := (List.cons.inj heq).2
      rw [htake', hdrop', hdigit, n.isExponent_exponentChars]
      rfl
    · next hother => exact absurd rfl (hother _)

theorem head_unsigned : ∀ c ∈ (n.whole ++ n.tail).head?, c ≠ '+' ∧ c ≠ '-' := by
  intro c hc
  cases hwhole : n.whole with
  | nil =>
    obtain ⟨part, hpart, -⟩ := n.someDigit hwhole
    rw [hwhole, tail, Option.mem_def.1 hpart] at hc
    cases hc
    decide
  | cons d ds =>
    have hd := n.wholeDigits d (hwhole ▸ List.mem_cons_self)
    rw [hwhole] at hc
    cases hc
    exact ne_sign_of_isDigit hd

theorem isNumber_chars : isNumber n.chars = true := by
  unfold isNumber chars
  rw [unsigned_append _ n.head_unsigned, n.isDecimal_unsigned]
  rfl

end Numeral

/-- The characters that numbers are written with. -/
def inNumbers (c : Char) : Bool :=
  c.isDigit || c = '.' || c = 'e' || c = 'E' || c = '+' || c = '-'

theorem Sign.inNumbers_of_mem {s : Sign} {c : Char} (h : c ∈ s.chars) : inNumbers c = true := by
  cases s with
  | none => cases h
  | plus => rw [List.mem_singleton.1 h]; decide
  | minus => rw [List.mem_singleton.1 h]; decide

theorem inNumbers_of_isDigit {c : Char} (h : c.isDigit = true) : inNumbers c = true := by
  simp [inNumbers, h]

theorem Exponent.inNumbers_of_mem {e : Exponent} {c : Char} (h : c ∈ e.chars) :
    inNumbers c = true := by
  rcases List.mem_cons.1 h with rfl | h
  · rcases e.isMark with hm | hm <;> rw [hm] <;> decide
  · rcases List.mem_append.1 h with h | h
    · exact Sign.inNumbers_of_mem h
    · have hdigits := e.isDigits
      simp only [Mini.isDigits, Bool.and_eq_true, List.all_eq_true] at hdigits
      exact inNumbers_of_isDigit (hdigits.2 c h)

theorem Numeral.inNumbers_of_mem {n : Numeral} {c : Char} (h : c ∈ n.chars) :
    inNumbers c = true := by
  have hexponent : c ∈ n.exponentChars → inNumbers c = true := fun hc => by
    unfold exponentChars at hc
    cases he : n.exponent with
    | none => rw [he] at hc; cases hc
    | some e => rw [he] at hc; exact Exponent.inNumbers_of_mem hc
  rcases List.mem_append.1 h with h | h
  · exact Sign.inNumbers_of_mem h
  · rcases List.mem_append.1 h with h | h
    · exact inNumbers_of_isDigit (n.wholeDigits c h)
    · unfold tail at h
      split at h
      · exact hexponent h
      · next part hf =>
        rcases List.mem_cons.1 h with rfl | h
        · decide
        · rcases List.mem_append.1 h with h | h
          · exact inNumbers_of_isDigit (n.fractionDigits part hf c h)
          · exact hexponent h

theorem isBlank_of_inNumbers {c : Char} (h : inNumbers c = true) : isBlank c = false := by
  unfold inNumbers at h
  simp only [Bool.or_eq_true, decide_eq_true_eq] at h
  rcases h with ((((h | rfl) | rfl) | rfl) | rfl) | rfl
  · exact isBlank_of_continuesName (by simp [continuesName, Char.isAlphanum, h])
  all_goals decide

/-! ## Names -/

/-- Whether a name is that of what is no finite number, in whatever case. -/
def namesUnbounded (name : String) : Bool :=
  unboundedNames.any fun n => n.toList == name.toList.map Char.toLower

theorem ne_of_startsName {c : Char} (h : startsName c = true) :
    c.isDigit = false ∧ c ≠ '.' ∧ c ≠ '+' ∧ c ≠ '-' ∧ c ≠ '"' ∧ c ≠ '\x27' := by
  refine ⟨?_, ?_, ?_, ?_, ?_, ?_⟩
  · refine Bool.eq_false_iff.2 fun hd => ?_
    unfold startsName at h
    simp only [Bool.or_eq_true, decide_eq_true_eq] at h
    rcases h with (h | rfl) | rfl
    · delta Char.isAlpha Char.isUpper Char.isLower at h
      simp only [Char.isDigit, Bool.or_eq_true, Bool.and_eq_true, decide_eq_true_eq,
        UInt32.le_iff_toNat_le, ge_iff_le] at h hd
      have : 'A'.val.toNat = 65 := rfl
      have : 'a'.val.toNat = 97 := rfl
      have : '9'.val.toNat = 57 := rfl
      omega
    all_goals cases hd
  all_goals
    rintro rfl
    cases h

/-- **A name is read as a literal** exactly if it names what is no finite number. -/
theorem isLiteral_name {name : String} (h : isName name.toList = true)
    (hname : name ∉ truthValues) :
    isLiteral name.toList = namesUnbounded name := by
  obtain ⟨c, t, hcs, hc, -⟩ := isName_iff.1 h
  obtain ⟨hdigit, hpoint, hplus, hminus, hdouble, hsingle⟩ := ne_of_startsName hc
  have hquoted : quotedAlone? name.toList = none := by
    have hnone : quoted? name.toList = none := by
      unfold quoted?
      rw [trimStart_eq_self (tight_of_isName h).head, hcs]
      exact if_neg (by simp [hdouble, hsingle])
    rw [quotedAlone?, hnone]
  have hunsigned : unsigned name.toList = name.toList :=
    @unsigned_append name.toList .none fun d hd => by
      rw [hcs] at hd
      cases hd
      exact ⟨hplus, hminus⟩
  have hdecimal : isDecimal name.toList = false := by
    have hneg : ¬c.isDigit = true := by rw [hdigit]; exact Bool.false_ne_true
    unfold isDecimal
    rw [hcs, List.takeWhile_cons_of_neg hneg, List.dropWhile_cons_of_neg hneg]
    dsimp only
    split
    · next heq => exact absurd (List.cons.inj heq).1 hpoint
    · rfl
  have htruth : (truthValues.any fun n => n.toList == name.toList) = false := by
    refine List.any_eq_false.2 fun n hn heq => hname ?_
    rwa [← String.toList_inj.1 (eq_of_beq heq)]
  unfold isLiteral isNumber
  rw [hquoted, hunsigned, hdecimal, htruth]
  simp [namesUnbounded]

end CompileCache.Mini
