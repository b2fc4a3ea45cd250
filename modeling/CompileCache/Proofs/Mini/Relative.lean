import CompileCache.Mini.Relative
import CompileCache.Proofs.Disk.Joined
import Mathlib.Logic.Relation

/-!
# Relative — what a target means, seen from a file

* `Path.Normal`: no piece is empty, a point or two points.
* `Path.Shortens`, `Path.Resolves`: pieces are resolved by leaving out idle pieces, names with two
  points behind them, and two points at the root, until nothing can be left out.
* **`Path.resolves_iff`**: there is exactly one result, and following the pieces finds it.
* `normal_joinRelative`, `resolves_joinRelative_iff`: seen from a normal path, each target is the
  normal path that it resolves to.
* `Path.Normal.eq_of_resolves`: normal paths that resolve to the same names are equal.
-/

namespace CompileCache

namespace Path

/-- A piece that leads to a name. -/
structure IsProper (piece : String) : Prop where
  not_idle : isIdle piece = false
  ne_dots : piece ≠ ".."

/-- The empty path, or one with nothing but names between the slashes. -/
def Normal (path : String) : Prop :=
  path = "" ∨ ∀ p ∈ pieces path, p ≠ "" ∧ p ≠ "." ∧ p ≠ ".."

/-- One step of resolving pieces. -/
inductive Shortens : List String → List String → Prop
  /-- An empty piece or a point stays where it is. -/
  | idle {piece : String} (h : isIdle piece = true) (above below : List String) :
      Shortens (above ++ piece :: below) (above ++ below)
  /-- Two points lead back from a name. -/
  | back {name : String} (h : IsProper name) (above below : List String) :
      Shortens (above ++ name :: ".." :: below) (above ++ below)
  /-- Two points at the root have no effect. -/
  | root (below : List String) : Shortens (".." :: below) below

/-- Pieces are resolved step by step until there is no step left. -/
def Resolves (pieces names : List String) : Prop :=
  Relation.ReflTransGen Shortens pieces names ∧ ∀ l, ¬Shortens names l

theorem isProper_iff {piece : String} :
    IsProper piece ↔ piece ≠ "" ∧ piece ≠ "." ∧ piece ≠ ".." := by
  constructor
  · rintro ⟨hi, hd⟩
    simp only [isIdle, Bool.or_eq_false_iff, beq_eq_false_iff_ne] at hi
    exact ⟨hi.1, hi.2, hd⟩
  · rintro ⟨he, hp, hd⟩
    exact ⟨by simp [isIdle, he, hp], hd⟩

instance (piece : String) : Decidable (IsProper piece) := decidable_of_iff _ isProper_iff.symm

instance (path : String) : Decidable (Normal path) :=
  inferInstanceAs (Decidable (path = "" ∨ _))

theorem normal_iff {path : String} :
    Normal path ↔ path = "" ∨ ∀ p ∈ pieces path, IsProper p := by
  simp only [Normal, isProper_iff]

theorem not_shortens_iff {l : List String} : (∀ l', ¬Shortens l l') ↔ ∀ p ∈ l, IsProper p := by
  constructor
  · intro h
    refine Classical.byContradiction fun hn => ?_
    -- a step can be made at the first piece that is not proper
    obtain ⟨p, hp⟩ : ∃ p, l.find? (fun p => !decide (IsProper p)) = some p := by
      rw [← Option.isSome_iff_exists, List.find?_isSome]
      simpa using hn
    obtain ⟨hbad, above, below, rfl, habove⟩ := List.find?_eq_some_iff_append.1 hp
    by_cases hi : isIdle p = true
    · exact h _ (.idle hi above below)
    · have hnot : ¬IsProper p := by simpa using hbad
      have hdots : p = ".." := Classical.byContradiction fun hne =>
        hnot ⟨Bool.eq_false_iff.2 hi, hne⟩
      subst hdots
      rcases List.eq_nil_or_concat above with rfl | ⟨above, n, rfl⟩
      · exact h _ (.root below)
      · have hname : IsProper n := by simpa using habove n (by simp)
        refine h (above ++ below) ?_
        rw [List.concat_eq_append, List.append_assoc]
        exact .back hname above below
  · intro h l' hs
    cases hs with
    | idle hi above below =>
      exact absurd hi (by simp [(h _ (List.mem_append_right _ List.mem_cons_self)).not_idle])
    | back _ above below => exact (h ".." (by simp)).ne_dots rfl
    | root below => exact (h ".." List.mem_cons_self).ne_dots rfl

end Path

namespace Mini

open CompileCache.Path (IsProper Shortens Resolves)

variable {names pieces : List String}

/-! ## Following pieces -/

theorem followPiece_of_isIdle {piece : String} (h : Path.isIdle piece = true)
    (names : List String) : followPiece names piece = names := if_pos h

theorem followPiece_dots (names : List String) : followPiece names ".." = names.dropLast := rfl

theorem followPiece_of_isProper {piece : String} (h : IsProper piece) (names : List String) :
    followPiece names piece = names ++ [piece] := by
  rw [followPiece, if_neg (by simp [h.not_idle]), if_neg h.ne_dots]

theorem follow_cons (names : List String) (piece : String) (pieces : List String) :
    follow names (piece :: pieces) = follow (followPiece names piece) pieces := rfl

theorem follow_append (names l l' : List String) :
    follow names (l ++ l') = follow (follow names l) l' := List.foldl_append

theorem follow_of_proper (names : List String) (h : ∀ p ∈ pieces, IsProper p) :
    follow names pieces = names ++ pieces := by
  induction pieces generalizing names with
  | nil => exact (List.append_nil names).symm
  | cons p pieces ih =>
    rw [follow_cons, followPiece_of_isProper (h p List.mem_cons_self),
      ih _ fun q hq => h q (List.mem_cons_of_mem p hq), List.append_assoc]
    rfl

theorem mem_of_mem_follow {n : String} (h : n ∈ follow names pieces) :
    n ∈ names ∨ n ∈ pieces := by
  induction pieces generalizing names with
  | nil => exact .inl h
  | cons p pieces ih =>
    rcases ih h with hn | hn
    · unfold followPiece at hn
      split at hn
      · exact .inl hn
      · split at hn
        · exact .inl (List.dropLast_subset _ hn)
        · rcases List.mem_append.1 hn with hn | hn
          · exact .inl hn
          · exact .inr (List.mem_singleton.1 hn ▸ List.mem_cons_self)
    · exact .inr (List.mem_cons_of_mem p hn)

theorem proper_follow (h : ∀ n ∈ names, IsProper n) (pieces : List String) :
    ∀ n ∈ follow names pieces, IsProper n := by
  induction pieces generalizing names with
  | nil => exact h
  | cons p pieces ih =>
    refine ih fun n hn => ?_
    unfold followPiece at hn
    split at hn
    · exact h n hn
    · next hi =>
      split at hn
      · exact h n (List.dropLast_subset _ hn)
      · next hd =>
        rcases List.mem_append.1 hn with hn | hn
        · exact h n hn
        · exact List.mem_singleton.1 hn ▸ ⟨Bool.eq_false_iff.2 hi, hd⟩

/-! ## Following resolves -/

theorem follow_eq_of_shortens {l l' : List String} (h : Shortens l l') :
    follow [] l = follow [] l' := by
  cases h with
  | idle hi above below =>
    rw [follow_append, follow_append, follow_cons, followPiece_of_isIdle hi]
  | back hn above below =>
    rw [follow_append, follow_append, follow_cons, follow_cons, followPiece_of_isProper hn,
      followPiece_dots, List.dropLast_concat]
  | root below => rfl

/-- Names with pieces behind them are resolved to what following the pieces leads to. -/
theorem shortens_follow (h : ∀ n ∈ names, IsProper n) (pieces : List String) :
    Relation.ReflTransGen Shortens (names ++ pieces) (follow names pieces) := by
  induction pieces generalizing names with
  | nil => rw [List.append_nil]; exact .refl
  | cons p pieces ih =>
    rw [follow_cons]
    by_cases hi : Path.isIdle p = true
    · rw [followPiece_of_isIdle hi]
      exact .head (.idle hi names pieces) (ih h)
    by_cases hd : p = ".."
    · subst hd
      rw [followPiece_dots]
      rcases List.eq_nil_or_concat names with rfl | ⟨names, n, rfl⟩
      · exact .head (.root pieces) (ih h)
      · rw [List.concat_eq_append] at h ⊢
        rw [List.dropLast_concat, List.append_assoc]
        exact .head (.back (h n (by simp)) names pieces)
          (ih fun m hm => h m (List.mem_append_left _ hm))
    · have hp : IsProper p := ⟨Bool.eq_false_iff.2 hi, hd⟩
      rw [followPiece_of_isProper hp, List.append_cons]
      refine ih fun n hn => ?_
      rcases List.mem_append.1 hn with hn | hn
      · exact h n hn
      · exact List.mem_singleton.1 hn ▸ hp

end Mini

namespace Path

open Mini

/-- **Pieces resolve to exactly one list of names**, which is found by following them. -/
theorem resolves_iff {l ns : List String} : Resolves l ns ↔ ns = follow [] l := by
  constructor
  · rintro ⟨hsteps, hend⟩
    have hsame : follow [] l = follow [] ns := by
      clear hend
      induction hsteps with
      | refl => rfl
      | tail _ hstep ih => exact ih.trans (follow_eq_of_shortens hstep)
    rw [hsame, follow_of_proper [] (not_shortens_iff.1 hend)]
    rfl
  · rintro rfl
    exact ⟨@shortens_follow [] (by simp) l,
      not_shortens_iff.2 (proper_follow (by simp) l)⟩

theorem normal_intercalate {ns : List String} (h : ∀ n ∈ ns, IsProper n)
    (hs : ∀ n ∈ ns, '/' ∉ n.toList) :
    Normal ("/".intercalate ns) ∧ names ("/".intercalate ns) = ns := by
  rcases List.eq_nil_or_concat ns with rfl | ⟨_, _, hns⟩
  · exact ⟨.inl rfl, rfl⟩
  · have hpieces := pieces_intercalate (by simp [hns]) hs
    refine ⟨normal_iff.2 (.inr (by rwa [hpieces])), ?_⟩
    rw [names, hpieces]
    exact List.filter_eq_self.2 fun n hn => by simp [(h n hn).not_idle]

theorem Normal.follow_pieces {path : String} (h : Normal path) :
    follow [] (pieces path) = names path := by
  rcases normal_iff.1 h with rfl | h
  · rfl
  · rw [follow_of_proper [] h, names]
    exact (List.filter_eq_self.2 fun n hn => by simp [(h n hn).not_idle]).symm

theorem Normal.intercalate_names {path : String} (h : Normal path) :
    "/".intercalate (names path) = path := by
  rcases normal_iff.1 h with rfl | h
  · rfl
  · rw [names, List.filter_eq_self.2 fun n hn => by simp [(h n hn).not_idle], intercalate_pieces]

/-- **A normal path has one spelling**: two that resolve to the same names are equal. -/
theorem Normal.eq_of_resolves {p q : String} {ns : List String} (hp : Normal p) (hq : Normal q)
    (h : Resolves (pieces p) ns) (h' : Resolves (pieces q) ns) : p = q := by
  have hnames : names p = names q := by
    rw [← hp.follow_pieces, ← hq.follow_pieces, ← resolves_iff.1 h, ← resolves_iff.1 h']
  rw [← hp.intercalate_names, hnames, hq.intercalate_names]

theorem Normal.proper_directory {path : String} (h : Normal path) :
    ∀ n ∈ (pieces path).dropLast, IsProper n := by
  intro n hn
  rcases normal_iff.1 h with rfl | h
  · cases hn
  · exact h n (List.dropLast_subset _ hn)

theorem Normal.append {path tail : String} (h : Normal path) (hs : '/' ∉ tail.toList)
    (ht : 3 ≤ tail.length) : Normal (path ++ tail) := by
  have hlong : ∀ p : String, IsProper (p ++ tail) := fun p => by
    have hlen : 3 ≤ (p ++ tail).length := by rw [String.length_append]; omega
    refine isProper_iff.2 ⟨?_, ?_, ?_⟩ <;> intro he <;> rw [he] at hlen <;> revert hlen <;> decide
  obtain ⟨ps, p, hp, hpt⟩ := exists_pieces_append path hs
  refine normal_iff.2 (.inr fun n hn => ?_)
  rw [hpt] at hn
  rcases List.mem_append.1 hn with hn | hn
  · rcases normal_iff.1 h with rfl | h
    · rw [(List.append_eq_singleton_iff.1 hp.symm).resolve_right (by simp) |>.1] at hn
      cases hn
    · exact h n (by rw [hp]; exact List.mem_append_left _ hn)
  · exact List.mem_singleton.1 hn ▸ hlong p

end Path

namespace Mini

open CompileCache.Path (Normal Resolves)

variable {file : String}

theorem slash_not_mem_follow (file target : String) :
    ∀ n ∈ follow (Path.pieces file).dropLast (Path.pieces target), '/' ∉ n.toList := by
  intro n hn
  rcases mem_of_mem_follow hn with hn | hn
  · exact Path.slash_not_mem_of_mem_pieces (List.dropLast_subset _ hn)
  · exact Path.slash_not_mem_of_mem_pieces hn

/-- **Seen from a normal path, every target is a normal path.** -/
theorem normal_joinRelative (h : Normal file) (target : String) :
    Normal (joinRelative file target) :=
  (Path.normal_intercalate (proper_follow h.proper_directory _)
    (slash_not_mem_follow file target)).1

/-- **The names of a target are what it resolves to** behind the directory of the file. -/
theorem resolves_joinRelative_iff (h : Normal file) (target : String) {ns : List String} :
    Resolves ((Path.pieces file).dropLast ++ Path.pieces target) ns ↔
      ns = Path.names (joinRelative file target) := by
  have hnames := (Path.normal_intercalate (proper_follow h.proper_directory (Path.pieces target))
    (slash_not_mem_follow file target)).2
  rw [Path.resolves_iff, follow_append, follow_of_proper [] h.proper_directory]
  unfold joinRelative
  rw [hnames]
  rfl

end Mini

end CompileCache
