import CompileCache.Proofs.Disk.Paths

/-!
# Joined — names with slashes between them

* `Path.intercalate_pieces`: the pieces of a path with slashes between them are the path again.
* **`Path.pieces_intercalate`**: the pieces of names with slashes between them are these names;
  `Path.intercalate_inj`.
* `Path.exists_pieces_append`: what is written behind a path goes to its last piece.
* `Path.extent`, `Path.byteSize_add_le_join`, `Path.byteSize_foldl_join_le`,
  `Path.byteSize_intercalate`: how long joined paths are.
-/

namespace CompileCache

namespace Text

theorem pieces_intercalate {sep : Char} {ps : List (List Char)} (hne : ps ≠ [])
    (h : ∀ p ∈ ps, sep ∉ p) : pieces sep ([sep].intercalate ps) = ps := by
  induction ps with
  | nil => exact absurd rfl hne
  | cons p ps ih =>
    have hp := pieces_of_not_mem (h p List.mem_cons_self)
    cases ps with
    | nil => rw [List.intercalate_singleton, hp]
    | cons q ps =>
      have hps := ih (List.cons_ne_nil q ps) fun r hr => h r (List.mem_cons_of_mem p hr)
      rw [List.intercalate_cons_cons, List.append_assoc, List.singleton_append,
        pieces_append_sep, hp, hps]
      rfl

theorem exists_pieces_eq_append {sep : Char} (xs : List Char) {ys : List Char} (h : sep ∉ ys) :
    ∃ ps p, pieces sep xs = ps ++ [p] ∧ pieces sep (xs ++ ys) = ps ++ [p ++ ys] := by
  induction xs with
  | nil => exact ⟨[], [], rfl, by rw [List.nil_append, pieces_of_not_mem h]; rfl⟩
  | cons x xs ih =>
    obtain ⟨ps, p, hp, hps⟩ := ih
    rw [List.cons_append, pieces_cons, pieces_cons, hp, hps]
    unfold pieceStep
    split
    · exact ⟨[] :: ps, p, rfl, rfl⟩
    · cases ps with
      | nil => exact ⟨[], x :: p, rfl, rfl⟩
      | cons q ps => exact ⟨(x :: q) :: ps, p, rfl, rfl⟩

end Text

namespace Path

theorem intercalate_pieces (path : String) : "/".intercalate (pieces path) = path := by
  have hmap : (pieces path).map String.toList = Text.pieces '/' path.toList := by
    unfold pieces
    rw [List.map_map]
    exact List.map_id'' (fun _ => String.toList_ofList) _
  apply String.toList_inj.1
  rw [String.toList_intercalate, hmap]
  exact Text.intercalate_pieces '/' path.toList

/-- **The pieces of names with slashes between them** are these names. -/
theorem pieces_intercalate {ns : List String} (hne : ns ≠ []) (h : ∀ n ∈ ns, '/' ∉ n.toList) :
    pieces ("/".intercalate ns) = ns := by
  have hpieces : Text.pieces '/' (['/'].intercalate (ns.map String.toList)) =
      ns.map String.toList :=
    Text.pieces_intercalate (by simpa using hne) (by simpa using h)
  unfold pieces
  rw [String.toList_intercalate, show "/".toList = ['/'] from rfl, hpieces, List.map_map]
  exact List.map_id'' (fun _ => String.ofList_toList) ns

theorem intercalate_inj {ns ms : List String} (hns : ns ≠ []) (hms : ms ≠ [])
    (hn : ∀ n ∈ ns, '/' ∉ n.toList) (hm : ∀ m ∈ ms, '/' ∉ m.toList)
    (h : "/".intercalate ns = "/".intercalate ms) : ns = ms := by
  rw [← pieces_intercalate hns hn, h, pieces_intercalate hms hm]

theorem exists_pieces_append (path : String) {tail : String} (h : '/' ∉ tail.toList) :
    ∃ ps p, pieces path = ps ++ [p] ∧ pieces (path ++ tail) = ps ++ [p ++ tail] := by
  obtain ⟨ps, p, hp, hps⟩ := Text.exists_pieces_eq_append path.toList h
  refine ⟨ps.map String.ofList, String.ofList p, ?_, ?_⟩
  · rw [pieces, hp]
    simp
  · rw [pieces, String.toList_append, hps]
    simp [String.ofList_append]

/-! ## Long paths -/

theorem byteSize_add_le_join (base : String) {path : String} (h : isAbsolute path = false) :
    base.utf8ByteSize + path.utf8ByteSize ≤ (join base path).utf8ByteSize := by
  unfold join
  split
  · next hor =>
    rw [h, Bool.false_or, beq_iff_eq] at hor
    rw [hor]
    exact Nat.le_of_eq (Nat.zero_add _)
  · split <;> simp only [String.utf8ByteSize_append] <;> omega

theorem byteSize_join_le (base path : String) :
    (join base path).utf8ByteSize ≤ base.utf8ByteSize + (path.utf8ByteSize + 1) := by
  have hslash : "/".utf8ByteSize = 1 := rfl
  unfold join
  split
  · omega
  · split <;> simp only [String.utf8ByteSize_append, hslash] <;> omega

theorem byteSize_le_foldl_join (base : String) {names : List String}
    (h : ∀ n ∈ names, isAbsolute n = false) :
    base.utf8ByteSize ≤ (names.foldl join base).utf8ByteSize := by
  induction names generalizing base with
  | nil => exact Nat.le_refl _
  | cons n names ih =>
    obtain ⟨hn, hnames⟩ := List.forall_mem_cons.1 h
    have hjoin := byteSize_add_le_join base hn
    have hrest := ih (join base n) hnames
    rw [List.foldl_cons]
    omega

/-- The bytes of names, with one more for each. -/
def extent : List String → Nat
  | [] => 0
  | n :: names => n.utf8ByteSize + 1 + extent names

theorem extent_append (names names' : List String) :
    extent (names ++ names') = extent names + extent names' := by
  induction names with
  | nil => exact (Nat.zero_add _).symm
  | cons n names ih =>
    rw [List.cons_append, extent, extent, ih]
    omega

theorem extent_replicate (k : Nat) (n : String) :
    extent (List.replicate k n) = k * (n.utf8ByteSize + 1) := by
  induction k with
  | zero => exact (Nat.zero_mul _).symm
  | succ k ih => rw [List.replicate_succ, extent, ih, Nat.succ_mul, Nat.add_comm]

theorem byteSize_foldl_join_le (base : String) (names : List String) :
    (names.foldl join base).utf8ByteSize ≤ base.utf8ByteSize + extent names := by
  induction names generalizing base with
  | nil => exact Nat.le_refl _
  | cons n names ih =>
    have hjoin := byteSize_join_le base n
    have hrest := ih (join base n)
    rw [extent, List.foldl_cons]
    omega

theorem byteSize_intercalate {names : List String} (h : names ≠ []) :
    ("/".intercalate names).utf8ByteSize + 1 = extent names := by
  induction names with
  | nil => exact absurd rfl h
  | cons n names ih =>
    cases names with
    | nil =>
      rw [String.intercalate_singleton]
      rfl
    | cons m names =>
      have hrest := ih (List.cons_ne_nil m names)
      have hslash : "/".utf8ByteSize = 1 := rfl
      rw [String.intercalate_cons_cons, String.utf8ByteSize_append, String.utf8ByteSize_append,
        extent]
      omega

theorem empty_mem_pieces {path : String} (h : isAbsolute path = true) : "" ∈ pieces path :=
  List.mem_of_head? (head?_pieces h)

end Path

end CompileCache
