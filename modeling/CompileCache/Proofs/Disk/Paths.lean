import CompileCache.Disk.Path

/-!
# Paths — the names of joined paths

* `Text.pieces_append_sep`: the pieces of two texts with a separator between them.
* `Path.exists_pieces_join`, **`Path.names_join`**: the pieces and the names of a path under
  another one.
* `Path.exists_names_append`: what a path ends in is the end of its last name.
* `Path.mem_toList_iff_of_names`: paths with the same names have the same characters, but for
  slashes and points.
* `Path.components`: what a path is made of. **`Path.same_iff`**: two paths are the same if their
  components are.
-/

namespace CompileCache

namespace Text

theorem pieces_append_sep (sep : Char) (xs ys : List Char) :
    pieces sep (xs ++ sep :: ys) = pieces sep xs ++ pieces sep ys := by
  induction xs with
  | nil =>
    rw [List.nil_append, pieces_cons]
    unfold pieceStep
    rw [if_pos rfl]
    rfl
  | cons x xs ih =>
    rw [List.cons_append, pieces_cons, pieces_cons, ih]
    unfold pieceStep
    split
    · rfl
    · cases hp : pieces sep xs with
      | nil => exact absurd hp (pieces_ne_nil sep xs)
      | cons p ps => rfl

theorem pieces_of_not_mem {sep : Char} {cs : List Char} (h : sep ∉ cs) : pieces sep cs = [cs] := by
  induction cs with
  | nil => rfl
  | cons c cs ih =>
    have hc : c ≠ sep := fun e => h (e ▸ List.mem_cons_self)
    rw [pieces_cons, ih fun hm => h (List.mem_cons_of_mem c hm), pieceStep, if_neg hc]

theorem exists_pieces_append {sep : Char} (xs : List Char) {ys : List Char} (h : sep ∉ ys) :
    ∃ ps p, pieces sep (xs ++ ys) = ps ++ [p ++ ys] := by
  induction xs with
  | nil => exact ⟨[], [], by rw [List.nil_append, pieces_of_not_mem h]; rfl⟩
  | cons x xs ih =>
    obtain ⟨ps, p, hp⟩ := ih
    rw [List.cons_append, pieces_cons, hp]
    unfold pieceStep
    split
    · exact ⟨[] :: ps, p, rfl⟩
    · cases ps with
      | nil => exact ⟨[], x :: p, rfl⟩
      | cons q ps => exact ⟨(x :: q) :: ps, p, rfl⟩

theorem exists_mem_pieces_iff {sep c : Char} {cs : List Char} :
    (∃ p ∈ pieces sep cs, c ∈ p) ↔ c ∈ cs ∧ c ≠ sep := by
  induction cs with
  | nil => simp
  | cons x cs ih =>
    rw [pieces_cons]
    unfold pieceStep
    split
    · next h =>
      subst h
      simp only [List.mem_cons, exists_eq_or_imp, List.not_mem_nil, false_or, ih]
      grind
    · next h =>
      cases hp : pieces sep cs with
      | nil => exact absurd hp (pieces_ne_nil sep cs)
      | cons p ps =>
        simp only [hp, List.mem_cons, exists_eq_or_imp] at ih ⊢
        rw [or_assoc, ih]
        grind

end Text

namespace Path

theorem pieces_of_plain {k : String} (h : '/' ∉ k.toList) : pieces k = [k] := by
  rw [pieces, Text.pieces_of_not_mem h, List.map_singleton, String.ofList_toList]

theorem pieces_append_slash (a b : String) : pieces (a ++ "/" ++ b) = pieces a ++ pieces b := by
  unfold pieces
  rw [← List.map_append, ← Text.pieces_append_sep, String.toList_append, String.toList_append,
    List.append_assoc]
  rfl

theorem pieces_empty : pieces "" = [""] := rfl

theorem exists_pieces_join (base : String) {path : String} (h : isAbsolute path = false) :
    ∃ ps, pieces (join base path) = ps ++ pieces path ∧
      ps.filter (fun p => !isIdle p) = names base := by
  unfold join
  by_cases hb : base = ""
  · subst hb
    rw [h]
    exact ⟨[], rfl, rfl⟩
  · rw [if_neg (by simp [h, hb])]
    split
    · next hl =>
      have hl' : base.toList.getLast? = some '/' := by simpa using hl
      obtain ⟨cs, hcs⟩ := List.getLast?_eq_some_iff.1 hl'
      have hbase : base = String.ofList cs ++ "/" ++ "" := by
        apply String.toList_inj.1
        rw [hcs]
        simp
      have hpath : base ++ path = String.ofList cs ++ "/" ++ path := by
        rw [hbase]
        simp
      refine ⟨pieces (String.ofList cs), by rw [hpath, pieces_append_slash], ?_⟩
      unfold names
      rw [hbase, pieces_append_slash, pieces_empty, List.filter_append]
      simp [isIdle]
    · exact ⟨pieces base, pieces_append_slash base path, rfl⟩

theorem names_join (base : String) {path : String} (h : isAbsolute path = false) :
    names (join base path) = names base ++ names path := by
  obtain ⟨ps, hps, hn⟩ := exists_pieces_join base h
  rw [names, hps, List.filter_append, hn]
  rfl

theorem isAbsolute_of_plain {k : String} (h : '/' ∉ k.toList) : isAbsolute k = false := by
  unfold isAbsolute
  cases hk : k.toList with
  | nil => rfl
  | cons c cs =>
    rw [hk] at h
    have hc : c ≠ '/' := fun e => h (e ▸ List.mem_cons_self)
    simp [hc]

theorem names_of_plain {k : String} (h : '/' ∉ k.toList) (hi : isIdle k = false) :
    names k = [k] := by
  rw [names, pieces_of_plain h, List.filter_cons, hi]
  rfl

theorem exists_join_eq (base path : String) : ∃ lead, join base path = lead ++ path := by
  unfold join
  split
  · exact ⟨"", (String.empty_append).symm⟩
  · split
    · exact ⟨base, rfl⟩
    · exact ⟨base ++ "/", rfl⟩

theorem exists_names_append (path tail : String) (h : '/' ∉ tail.toList)
    (hl : 2 ≤ tail.toList.length) : ∃ ns n, names (path ++ tail) = ns ++ [n ++ tail] := by
  obtain ⟨ps, p, hp⟩ := Text.exists_pieces_append path.toList h
  refine ⟨(ps.map String.ofList).filter fun n => !isIdle n, String.ofList p, ?_⟩
  have hlast : isIdle (String.ofList p ++ tail) = false := by
    have hn : ∀ s : String, s.toList.length < 2 → String.ofList p ++ tail ≠ s := by
      rintro s hs rfl
      simp at hs
      omega
    simp [isIdle, hn "" (by decide), hn "." (by decide)]
  unfold names pieces
  rw [String.toList_append, hp, List.map_append, List.map_singleton, List.filter_append,
    String.ofList_append, String.ofList_toList, List.filter_cons, hlast]
  rfl

theorem slash_not_mem_of_mem_pieces {path p : String} (h : p ∈ pieces path) : '/' ∉ p.toList := by
  obtain ⟨q, hq, rfl⟩ := List.mem_map.1 h
  rw [String.toList_ofList]
  intro hs
  exact (Text.exists_mem_pieces_iff.1 ⟨q, hq, hs⟩).2 rfl

theorem mem_toList_iff_of_names {path : String} {c : Char} (hs : c ≠ '/') (hp : c ≠ '.') :
    c ∈ path.toList ↔ ∃ n ∈ names path, c ∈ n.toList := by
  have hidle : ∀ p : String, c ∈ p.toList → isIdle p = false := by
    intro p hc
    unfold isIdle
    rw [Bool.or_eq_false_iff, beq_eq_false_iff_ne, beq_eq_false_iff_ne]
    refine ⟨?_, ?_⟩
    · rintro rfl; cases hc
    · rintro rfl; exact hp (List.mem_singleton.1 hc)
  constructor
  · intro hc
    obtain ⟨p, hm, hcp⟩ := Text.exists_mem_pieces_iff.2 ⟨hc, hs⟩
    have hcp' : c ∈ (String.ofList p).toList := by rwa [String.toList_ofList]
    refine ⟨String.ofList p, List.mem_filter.2 ⟨List.mem_map_of_mem hm, ?_⟩, hcp'⟩
    rw [hidle _ hcp']
    rfl
  · rintro ⟨n, hn, hc⟩
    obtain ⟨p, hm, rfl⟩ := List.mem_map.1 (List.mem_filter.1 hn).1
    rw [String.toList_ofList] at hc
    exact (Text.exists_mem_pieces_iff.1 ⟨p, hm, hc⟩).1

/-! ## Components -/

/-- What a path is made of. -/
inductive Component where
  /-- Where all absolute paths start. -/
  | root
  /-- Where a path starts that says so. -/
  | here
  /-- The directory above. -/
  | up
  | name (n : String)
deriving DecidableEq

namespace Component

/-- What a name leads to. -/
def ofName (n : String) : Component := if n = ".." then .up else .name n

/-- What a piece adds to a path, if anything. -/
def ofPiece? (piece : String) : Option Component :=
  if piece = "" ∨ piece = "." then none else some (ofName piece)

/-- Whether a component leads on from where a path starts. -/
def isStep : Component → Bool
  | root | here => false
  | up | name _ => true

theorem isStep_ofName (n : String) : (ofName n).isStep = true := by
  unfold ofName
  split <;> rfl

theorem ofName_inj {m n : String} (h : ofName m = ofName n) : m = n := by
  unfold ofName at h
  grind

theorem ofPiece?_eq (piece : String) :
    ofPiece? piece = if isIdle piece then none else some (ofName piece) := by
  unfold ofPiece? isIdle
  simp only [Bool.or_eq_true, beq_iff_eq]

theorem filterMap_ofPiece? (l : List String) :
    l.filterMap ofPiece? = (l.filter fun p => !isIdle p).map ofName := by
  induction l with
  | nil => rfl
  | cons p l ih =>
    rw [List.filterMap_cons, List.filter_cons, ofPiece?_eq, ih]
    cases isIdle p <;> rfl

end Component

/-- Where a path starts, if it says so. -/
def origin (path : String) : List Component :=
  if isAbsolute path then [.root] else if (pieces path).head? = some "." then [.here] else []

/-- The components of a path: empty pieces add nothing, and a point adds something at the start
only. -/
def components (path : String) : List Component :=
  origin path ++ (pieces path).filterMap Component.ofPiece?

theorem head?_pieces {path : String} (h : isAbsolute path = true) :
    (pieces path).head? = some "" := by
  unfold isAbsolute at h
  unfold pieces
  cases hp : path.toList with
  | nil => rw [hp] at h; cases h
  | cons c cs =>
    rw [hp] at h
    rw [Text.pieces_cons]
    unfold Text.pieceStep
    rw [if_pos (Option.some.inj (eq_of_beq h))]
    rfl

theorem origin_eq (path : String) : origin path =
    if isAbsolute path then [.root] else if startsHere path then [.here] else [] := by
  unfold origin startsHere
  simp only [beq_iff_eq]

theorem origin_inj {a b : String} :
    origin a = origin b ↔ isAbsolute a = isAbsolute b ∧ startsHere a = startsHere b := by
  have absolute : ∀ {path}, isAbsolute path = true → startsHere path = false := by
    intro path h
    rw [startsHere, head?_pieces h]
    decide
  have ha : isAbsolute a = true → startsHere a = false := absolute
  have hb : isAbsolute b = true → startsHere b = false := absolute
  rw [origin_eq, origin_eq]
  generalize isAbsolute a = aa, isAbsolute b = ab, startsHere a = sa, startsHere b = sb at ha hb ⊢
  revert aa ab sa sb
  decide

theorem components_eq (path : String) :
    components path = origin path ++ (names path).map Component.ofName := by
  rw [components, Component.filterMap_ofPiece?]
  rfl

theorem isStep_origin (path : String) : ∀ c ∈ origin path, c.isStep = false := by
  unfold origin
  split
  · simp [Component.isStep]
  · split <;> simp [Component.isStep]

theorem filter_components (path : String) :
    (components path).filter Component.isStep = (names path).map Component.ofName := by
  rw [components_eq, List.filter_append,
    List.filter_eq_nil_iff.2 (by simpa using isStep_origin path),
    List.filter_eq_self.2 (by simp [Component.isStep_ofName]), List.nil_append]

theorem components_inj {a b : String} :
    components a = components b ↔ origin a = origin b ∧ names a = names b := by
  constructor
  · intro h
    have hstep := congrArg (List.filter Component.isStep) h
    rw [filter_components, filter_components] at hstep
    rw [components_eq, components_eq, hstep] at h
    exact ⟨List.append_cancel_right h, (List.map_inj_right fun _ _ => Component.ofName_inj).1 hstep⟩
  · rintro ⟨ho, hn⟩
    rw [components_eq, components_eq, ho, hn]

/-- **Two paths are the same if their components are.** -/
theorem same_iff {a b : String} : same a b = true ↔ components a = components b := by
  rw [components_inj, origin_inj, same, Bool.and_eq_true, Bool.and_eq_true, beq_iff_eq,
    beq_iff_eq, beq_iff_eq, and_assoc, and_comm]

end Path

end CompileCache
