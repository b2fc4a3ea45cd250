/-!
# Pieces — cutting lists of characters

* `pieces`: the parts between the occurrences of a separator; there is always at least one.
* `cut?`: the parts before and after the first occurrence of a separator.
* `after?`, `before?`: a text without what it has to begin with or to end in.
* **`intercalate_pieces`**: the pieces joined by the separator are the text again.
-/

namespace CompileCache.Text

/-- Puts a character in front of a list of parts; a separator begins a new part. -/
def pieceStep (sep c : Char) (ps : List (List Char)) : List (List Char) :=
  if c = sep then [] :: ps
  else match ps with
    | [] => [[c]]
    | p :: ps => (c :: p) :: ps

/-- The parts of a text between the occurrences of `sep`. -/
def pieces (sep : Char) (cs : List Char) : List (List Char) := cs.foldr (pieceStep sep) [[]]

/-- The parts before and after the first `sep`. -/
def cut? (sep : Char) : List Char → Option (List Char × List Char)
  | [] => none
  | c :: cs => if c = sep then some ([], cs) else (cut? sep cs).map fun r => (c :: r.1, r.2)

@[simp] theorem pieces_nil (sep : Char) : pieces sep [] = [[]] := rfl

theorem pieces_cons (sep c : Char) (cs : List Char) :
    pieces sep (c :: cs) = pieceStep sep c (pieces sep cs) := rfl

theorem pieces_ne_nil (sep : Char) (cs : List Char) : pieces sep cs ≠ [] := by
  cases cs with
  | nil => simp
  | cons c cs =>
    rw [pieces_cons]; unfold pieceStep
    split
    · simp
    · split <;> simp

/-- **The pieces joined by the separator are the text again.** -/
theorem intercalate_pieces (sep : Char) (cs : List Char) :
    [sep].intercalate (pieces sep cs) = cs := by
  induction cs with
  | nil => rfl
  | cons c cs ih =>
    have hne := pieces_ne_nil sep cs
    rw [pieces_cons]; unfold pieceStep
    split
    · next h =>
      subst h
      cases hp : pieces c cs with
      | nil => exact absurd hp hne
      | cons p ps => rw [hp] at ih; simp_all [List.intercalate, List.intersperse]
    · cases hp : pieces sep cs with
      | nil => exact absurd hp hne
      | cons p ps =>
        rw [hp] at ih
        cases ps <;> simp_all [List.intercalate, List.intersperse]

/-- A cut text is the first part, the separator and the second part; the first holds none. -/
theorem eq_of_cut? {sep : Char} {cs a b : List Char} (h : cut? sep cs = some (a, b)) :
    cs = a ++ sep :: b ∧ sep ∉ a := by
  induction cs generalizing a with
  | nil => simp [cut?] at h
  | cons c cs ih =>
    rw [cut?] at h
    split at h
    · next hc =>
      subst hc
      simp only [Option.some.injEq, Prod.mk.injEq] at h
      obtain ⟨rfl, rfl⟩ := h
      simp
    · next hc =>
      obtain ⟨r, hr, he⟩ := Option.map_eq_some_iff.1 h
      obtain ⟨rfl, rfl⟩ := Prod.mk.inj he
      obtain ⟨rfl, hn⟩ := ih (a := r.1) (by rw [hr])
      simp [hn, Ne.symm hc]

/-- The rest of a text behind what it has to begin with. -/
def after? (lead : List Char) (cs : List Char) : Option (List Char) :=
  match lead, cs with
  | [], cs => some cs
  | _ :: _, [] => none
  | l :: lead, c :: cs => if l = c then after? lead cs else none

/-- The part of a text before what it has to end in. -/
def before? (tail : List Char) (cs : List Char) : Option (List Char) :=
  (after? tail.reverse cs.reverse).map List.reverse

theorem after?_eq_some_iff {lead cs rest : List Char} :
    after? lead cs = some rest ↔ cs = lead ++ rest := by
  fun_induction after? lead cs with
  | case1 cs => simp [eq_comm]
  | case2 => simp
  | case3 l lead cs ih => simp [ih]
  | case4 l lead c cs h => simp [Ne.symm h]

theorem before?_eq_some_iff {tail cs rest : List Char} :
    before? tail cs = some rest ↔ cs = rest ++ tail := by
  unfold before?
  rw [Option.map_eq_some_iff]
  constructor
  · rintro ⟨r, hr, rfl⟩
    rw [after?_eq_some_iff] at hr
    rw [← List.reverse_reverse cs, hr, List.reverse_append, List.reverse_reverse]
  · rintro rfl
    exact ⟨rest.reverse, after?_eq_some_iff.2 (List.reverse_append), List.reverse_reverse rest⟩

end CompileCache.Text
