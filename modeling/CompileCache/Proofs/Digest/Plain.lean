import CompileCache.Digest.Blake3

/-!
# Plain — digests whose texts name files

* `Digest.Plain`: no text of a digest has a slash.
* `Digest.letters`: a digest that gives each byte a letter; `Digest.brief`: one that leaves out a
  tail which many sequences share, so that their texts can be short names.
* **`Digest.brief_faithful`**, `Digest.brief_plain`: they are faithful and plain.
* `Digest.blake3_plain`, **`Digest.blake3_faithfulOn`**: BLAKE3 is plain, and faithful wherever it
  has no collision.
-/

namespace CompileCache.Digest

/-- The texts of a digest can name files. -/
def Plain (d : Digest) : Prop := ∀ b, '/' ∉ (d.hex b).toList

/-- A letter for a byte, and another one for each of the bytes that no name may have. -/
def letter (b : UInt8) : Char :=
  if b = 0 then 'Ā' else if b = 47 then 'ā' else Char.ofUInt8 b

/-- The letters of some bytes. The first one tells whether the tail was left out. -/
def lettersOf (tail l : List UInt8) : List Char :=
  if tail.isSuffixOf l then '-' :: (l.take (l.length - tail.length)).map letter
  else '=' :: l.map letter

/-- A digest that gives each byte a letter, and leaves out a tail. -/
def brief (tail : List UInt8) : Digest := ⟨fun b => String.ofList (lettersOf tail b.data.toList)⟩

/-- A digest that gives each byte a letter. -/
def letters : Digest := brief []

theorem toNat_letter (b : UInt8) :
    (letter b).toNat = if b.toNat = 0 then 256 else if b.toNat = 47 then 257 else b.toNat := by
  have h : ∀ n : Fin 256, (letter (UInt8.ofFin n)).toNat =
      if n.val = 0 then 256 else if n.val = 47 then 257 else n.val := by decide +kernel
  exact h b.toFin

theorem letter_inj {a b : UInt8} (h : letter a = letter b) : a = b := by
  have hn := congrArg Char.toNat h
  rw [toNat_letter, toNat_letter] at hn
  have ha := a.toNat_lt
  have hb := b.toNat_lt
  apply UInt8.toNat_inj.1
  grind

theorem letter_ne_slash (b : UInt8) : letter b ≠ '/' := by
  intro h
  have hn := congrArg Char.toNat h
  rw [toNat_letter] at hn
  have hb := b.toNat_lt
  change _ = 47 at hn
  split at hn
  · omega
  · split at hn <;> omega

theorem map_letter_inj {l l' : List UInt8} (h : l.map letter = l'.map letter) : l = l' :=
  (List.map_inj_right fun _ _ => letter_inj).1 h

theorem take_append_of_isSuffixOf {tail l : List UInt8} (h : tail.isSuffixOf l = true) :
    l.take (l.length - tail.length) ++ tail = l := by
  obtain ⟨front, rfl⟩ := List.isSuffixOf_iff_suffix.1 h
  rw [List.length_append, Nat.add_sub_cancel, List.take_left]

theorem lettersOf_inj {tail l l' : List UInt8} (h : lettersOf tail l = lettersOf tail l') :
    l = l' := by
  unfold lettersOf at h
  split at h
  · next hs =>
    split at h
    · next hs' =>
      have hfront := map_letter_inj (List.cons.inj h).2
      rw [← take_append_of_isSuffixOf hs, ← take_append_of_isSuffixOf hs', hfront]
    · exact absurd (List.cons.inj h).1 (by decide)
  · split at h
    · exact absurd (List.cons.inj h).1 (by decide)
    · exact map_letter_inj (List.cons.inj h).2

theorem brief_faithful (tail : List UInt8) : (brief tail).Faithful where
  injective a b _ _ h := by
    have hl := lettersOf_inj (String.ofList_injective h)
    exact ByteArray.ext (Array.toList_inj.1 hl)
  nonempty a _ h := by
    have hl := congrArg String.toList h
    change (String.ofList _).toList = _ at hl
    rw [String.toList_ofList] at hl
    unfold lettersOf at hl
    split at hl <;> cases hl

theorem brief_plain (tail : List UInt8) : (brief tail).Plain := by
  have plain : ∀ l : List UInt8, '/' ∉ l.map letter := by
    intro l h
    obtain ⟨b, -, hb⟩ := List.mem_map.1 h
    exact letter_ne_slash b hb
  intro b h
  change '/' ∈ (String.ofList _).toList at h
  rw [String.toList_ofList] at h
  unfold lettersOf at h
  split at h
  · rcases List.mem_cons.1 h with h | h
    · exact absurd h (by decide)
    · exact plain _ h
  · rcases List.mem_cons.1 h with h | h
    · exact absurd h (by decide)
    · exact plain _ h

theorem letters_faithful : letters.Faithful := brief_faithful []

/-! ## BLAKE3 -/

theorem blake3_plain : blake3.Plain := by
  intro b h
  change '/' ∈ (String.ofList _).toList at h
  rw [String.toList_ofList] at h
  exact Hex.slash_notMem_ofBytes _ h

theorem length_blake3 (b : ByteArray) : (blake3.hex b).length = 64 := by
  change (String.ofList _).length = _
  rw [String.length_ofList, Hex.length_ofBytes, Blake3.length_hash]

/-- **To be faithful, BLAKE3 only has to be free of collisions** among the byte sequences in
question. -/
theorem blake3_faithfulOn {K : ByteArray → Prop} :
    blake3.FaithfulOn K ↔ ∀ ⦃a b : ByteArray⦄, K a → K b → blake3.Separates a b := by
  refine ⟨fun h => h.injective, fun h => ⟨h, fun a _ he => ?_⟩⟩
  have hlen := congrArg String.length he
  rw [length_blake3] at hlen
  cases hlen

end CompileCache.Digest
