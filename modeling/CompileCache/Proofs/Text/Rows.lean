import CompileCache.Proofs.Disk.Paths
import CompileCache.Json.Fault
import Mathlib.Data.List.Basic

/-!
# Rows — the lines of a text and where they stand

* `IsLine`: a line of a text between what is before it and after it.
* `IsLine.getElem?_pieces`: the pieces of a text are its lines, in order.
* `Row`, `rows`: lines with their indices and the bytes before them.
* **`exists_isLine_of_mem_rows`**, `exists_row_of_isLine`: the rows of a text are its lines.
* `pairwise_rows`: a row ends before the next one begins.
* `extract_toUTF8`: the bytes between two places are those of the text that stands there.
-/

namespace CompileCache.Text

open Json (byteSize)

/-! ## Bytes -/

theorem byteSize_cons (c : Char) (cs : List Char) :
    byteSize (c :: cs) = c.utf8Size + byteSize cs := rfl

theorem byteSize_append (xs ys : List Char) : byteSize (xs ++ ys) = byteSize xs + byteSize ys := by
  induction xs with
  | nil => exact (Nat.zero_add _).symm
  | cons x xs ih => rw [List.cons_append, byteSize_cons, byteSize_cons, ih, Nat.add_assoc]

theorem utf8ByteSize_ofList (cs : List Char) : (String.ofList cs).utf8ByteSize = byteSize cs := by
  induction cs with
  | nil => rfl
  | cons c cs ih =>
    rw [String.ofList_cons, String.utf8ByteSize_append, String.utf8ByteSize_singleton, ih,
      byteSize_cons]

theorem utf8ByteSize_eq (s : String) : s.utf8ByteSize = byteSize s.toList := by
  rw [← utf8ByteSize_ofList, String.ofList_toList]

/-- **The bytes between two places** are those of the text that stands there. -/
theorem extract_toUTF8 {s : String} {before line after : List Char}
    (h : s.toList = before ++ line ++ after) :
    s.toUTF8.extract (byteSize before) (byteSize (before ++ line)) =
      (String.ofList line).toUTF8 := by
  have hs : s.toUTF8 = (String.ofList before).toUTF8 ++
      ((String.ofList line).toUTF8 ++ (String.ofList after).toUTF8) := by
    have happend : s = String.ofList before ++ (String.ofList line ++ String.ofList after) := by
      apply String.toList_inj.1
      simp [h]
    rw [happend]
    exact String.toByteArray_append.trans (congrArg _ String.toByteArray_append)
  have hbefore : byteSize before = (String.ofList before).toUTF8.size :=
    (utf8ByteSize_ofList before).symm
  have hline : byteSize line = (String.ofList line).toUTF8.size := (utf8ByteSize_ofList line).symm
  have hextract := @ByteArray.extract_append_size_add (String.ofList before).toUTF8
    ((String.ofList line).toUTF8 ++ (String.ofList after).toUTF8) 0 (String.ofList line).toUTF8.size
  rw [hs, byteSize_append, hbefore, hline]
  exact hextract.trans (ByteArray.extract_append_eq_left rfl)

/-! ## Lines -/

/-- A line of a text: it begins at the start or behind a line break, of which as many stand before
it as its index says, and ends before the next one or at the end. -/
structure IsLine (cs : List Char) (index : Nat) (before line after : List Char) : Prop where
  text : cs = before ++ line ++ after
  breaks : before.count '\n' = index
  starts : before = [] ∨ before.getLast? = some '\n'
  single : '\n' ∉ line
  ends : after = [] ∨ after.head? = some '\n'

theorem length_pieces (sep : Char) (cs : List Char) :
    (pieces sep cs).length = cs.count sep + 1 := by
  induction cs with
  | nil => rfl
  | cons c cs ih =>
    rw [pieces_cons, List.count_cons]
    unfold pieceStep
    split
    · next h => rw [List.length_cons, ih, if_pos (by simpa using h)]
    · next h =>
      rw [if_neg (by simpa using h)]
      cases hp : pieces sep cs with
      | nil => exact absurd hp (pieces_ne_nil sep cs)
      | cons p ps => rw [hp] at ih; simpa using ih

theorem IsLine.getElem?_pieces {cs before line after : List Char} {index : Nat}
    (h : IsLine cs index before line after) : (pieces '\n' cs)[index]? = some line := by
  have hline : (pieces '\n' (line ++ after))[0]? = some line := by
    rcases h.ends with rfl | hafter
    · rw [List.append_nil, pieces_of_not_mem h.single]
      rfl
    · obtain ⟨rest, rfl⟩ : ∃ rest, after = '\n' :: rest := by
        cases after with
        | nil => cases hafter
        | cons c rest => cases hafter; exact ⟨rest, rfl⟩
      rw [pieces_append_sep, pieces_of_not_mem h.single]
      rfl
  rw [h.text, ← h.breaks, List.append_assoc]
  rcases h.starts with hbefore | hbefore
  · rw [hbefore]
    exact hline
  · obtain ⟨lines, rfl⟩ := List.getLast?_eq_some_iff.1 hbefore
    have hindex : (lines ++ ['\n']).count '\n' = (pieces '\n' lines).length := by
      rw [length_pieces, List.count_append]
      rfl
    rw [List.append_assoc, List.singleton_append, pieces_append_sep, hindex,
      List.getElem?_append_right (Nat.le_refl _), Nat.sub_self]
    exact hline

theorem IsLine.line_eq {cs : List Char} {i : Nat}
    {before line after before' line' after' : List Char}
    (h : IsLine cs i before line after) (h' : IsLine cs i before' line' after') : line = line' := by
  have hpiece := h.getElem?_pieces
  rw [h'.getElem?_pieces] at hpiece
  exact (Option.some.inj hpiece).symm

/-! ## Rows -/

/-- A line with its index and the number of bytes before it. -/
structure Row where
  index : Nat
  offset : Nat
  line : List Char

/-- Lines as rows, given the index and the offset of the first one. -/
def rows (index offset : Nat) : List (List Char) → List Row
  | [] => []
  | line :: rest => ⟨index, offset, line⟩ :: rows (index + 1) (offset + byteSize line + 1) rest

theorem getElem?_rows (index offset : Nat) (lines : List (List Char)) (i : Nat) :
    ((rows index offset lines)[i]?).map (fun r => (r.index, r.line)) =
      (lines[i]?).map fun line => (index + i, line) := by
  induction lines generalizing index offset i with
  | nil => rfl
  | cons line lines ih =>
    cases i with
    | zero => rfl
    | succ i =>
      rw [rows, List.getElem?_cons_succ, List.getElem?_cons_succ, ih, Nat.add_right_comm,
        Nat.add_assoc]

theorem le_of_mem_rows {index offset : Nat} {lines : List (List Char)} {r : Row}
    (h : r ∈ rows index offset lines) : index ≤ r.index ∧ offset ≤ r.offset := by
  induction lines generalizing index offset with
  | nil => cases h
  | cons line lines ih =>
    rcases List.mem_cons.1 h with rfl | h
    · exact ⟨Nat.le_refl _, Nat.le_refl _⟩
    · have hrest := ih h
      omega

/-- **A row ends before the next one begins.** -/
theorem pairwise_rows (index offset : Nat) (lines : List (List Char)) :
    (rows index offset lines).Pairwise fun r r' =>
      r.index < r'.index ∧ r.offset + byteSize r.line < r'.offset := by
  induction lines generalizing index offset with
  | nil => exact .nil
  | cons line lines ih =>
    refine List.pairwise_cons.2 ⟨fun r hr => ?_, ih _ _⟩
    have hle := le_of_mem_rows hr
    dsimp only
    omega

theorem exists_isLine_of_mem_rows_append {lead : List Char} {lines : List (List Char)}
    (hlead : lead = [] ∨ lead.getLast? = some '\n') (hlines : ∀ l ∈ lines, '\n' ∉ l) {r : Row}
    (h : r ∈ rows (lead.count '\n') (byteSize lead) lines) :
    ∃ before after, IsLine (lead ++ ['\n'].intercalate lines) r.index before r.line after ∧
      byteSize before = r.offset := by
  induction lines generalizing lead with
  | nil => cases h
  | cons line lines ih =>
    have hline := hlines line List.mem_cons_self
    rcases List.mem_cons.1 h with rfl | h
    · cases lines with
      | nil => exact ⟨lead, [], ⟨by simp, rfl, hlead, hline, .inl rfl⟩, rfl⟩
      | cons next lines =>
        refine ⟨lead, '\n' :: ['\n'].intercalate (next :: lines),
          ⟨?_, rfl, hlead, hline, .inr rfl⟩, rfl⟩
        rw [List.intercalate_cons_cons]
        simp
    · have hbreaks : (lead ++ line ++ ['\n']).count '\n' = lead.count '\n' + 1 := by
        rw [List.count_append, List.count_append, List.count_eq_zero.2 hline]
        rfl
      have hsize : byteSize (lead ++ line ++ ['\n']) = byteSize lead + byteSize line + 1 := by
        rw [byteSize_append, byteSize_append]
        rfl
      rw [← hbreaks, ← hsize] at h
      obtain ⟨before, after, hr, hbefore⟩ := ih (.inr (by simp))
        (fun l hl => hlines l (List.mem_cons_of_mem line hl)) h
      refine ⟨before, after, ?_, hbefore⟩
      cases lines with
      | nil => cases h
      | cons next lines =>
        rw [List.intercalate_cons_cons, ← List.append_assoc, ← List.append_assoc]
        exact hr

variable {cs : List Char}

/-- **The rows of a text are its lines**, with the bytes before them. -/
theorem exists_isLine_of_mem_rows {r : Row} (h : r ∈ rows 0 0 (pieces '\n' cs)) :
    ∃ before after, IsLine cs r.index before r.line after ∧ byteSize before = r.offset := by
  have hlines : ∀ l ∈ pieces '\n' cs, '\n' ∉ l := fun l hl hm =>
    (exists_mem_pieces_iff.1 ⟨l, hl, hm⟩).2 rfl
  have hrows := @exists_isLine_of_mem_rows_append [] _ (.inl rfl) hlines _ h
  rwa [List.nil_append, intercalate_pieces] at hrows

theorem exists_row_of_isLine {index : Nat} {before line after : List Char}
    (h : IsLine cs index before line after) :
    ∃ r ∈ rows 0 0 (pieces '\n' cs), r.index = index ∧ r.line = line := by
  have hrow := getElem?_rows 0 0 (pieces '\n' cs) index
  rw [h.getElem?_pieces, Option.map_some, Nat.zero_add] at hrow
  obtain ⟨r, hr, heq⟩ := Option.map_eq_some_iff.1 hrow
  obtain ⟨rfl, rfl⟩ := Prod.mk.inj heq
  exact ⟨r, List.mem_of_getElem? hr, rfl, rfl⟩

end CompileCache.Text
