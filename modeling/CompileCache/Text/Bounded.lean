/-!
# Bounded — texts of bounded size

* **`exists_list_of_byteSize_lt`**: there are finitely many texts below a number of bytes.
-/

namespace CompileCache.Text

theorem length_le_byteSize (cs : List Char) : cs.length ≤ (String.ofList cs).utf8ByteSize := by
  induction cs with
  | nil => simp
  | cons c cs ih =>
    have := Char.utf8Size_pos c
    rw [String.ofList_cons, String.utf8ByteSize_append, String.utf8ByteSize_singleton]
    simp only [List.length_cons]; omega

theorem exists_list_of_chars : ∃ l : List Char, ∀ c, c ∈ l := by
  refine ⟨(List.range 0x110000).map Char.ofNat,
    fun c => List.mem_map.2 ⟨c.toNat, ?_, c.ofNat_toNat⟩⟩
  have h := c.valid
  simp only [UInt32.isValidChar, Nat.isValidChar] at h
  have : c.toNat = c.val.toNat := rfl
  exact List.mem_range.2 (by omega)

theorem exists_list_of_length_le (n : Nat) :
    ∃ l : List (List Char), ∀ cs : List Char, cs.length ≤ n → cs ∈ l := by
  induction n with
  | zero => exact ⟨[[]], fun cs h => by simp_all⟩
  | succ n ih =>
    obtain ⟨l, hl⟩ := ih
    obtain ⟨all, hall⟩ := exists_list_of_chars
    refine ⟨[] :: all.flatMap fun c => l.map (c :: ·), fun cs h => ?_⟩
    cases cs with
    | nil => simp
    | cons c cs =>
      refine List.mem_cons_of_mem _ (List.mem_flatMap.2 ⟨c, hall c, List.mem_map.2 ⟨cs, ?_, rfl⟩⟩)
      exact hl cs (by simpa using h)

/-- **There are finitely many texts below a number of bytes.** -/
theorem exists_list_of_byteSize_lt (n : Nat) :
    ∃ l : List String, ∀ s : String, s.utf8ByteSize < n → s ∈ l := by
  obtain ⟨l, hl⟩ := exists_list_of_length_le n
  refine ⟨l.map String.ofList, fun s h => List.mem_map.2 ⟨s.toList, hl _ ?_, String.ofList_toList⟩⟩
  have := length_le_byteSize s.toList
  rw [String.ofList_toList] at this
  omega

end CompileCache.Text
