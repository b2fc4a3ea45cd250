import CompileCache.Proofs.Mini.Lines
import CompileCache.Proofs.Text.Rows
import CompileCache.Text.Bounded
import Mathlib.Data.List.Forall2
import Mathlib.Data.List.Pairwise

/-!
# Positions — where the statements and the errors of a text stand

* `sum?`, `Program.read?`: reading with sums of 32 bits that must not overflow.
* **`read?_eq`**: nothing overflows below the greatest number of 32 bits.
* `IsComment`, `read_eq_comment_iff`: when a line is a comment.
* `item?`, `error?`, `lineRows`, **`read_eq`**: each row gives a statement, an error or nothing.
* `Covers`, `Apart`, **`covers_of_mem_rows`**: the span and the location of a line.
* `Positioned`, **`positions_exact`**: which lines give a statement or an error, in which order, and
  where.
-/

namespace CompileCache

/-- The sum of two numbers of 32 bits, unless it has more. -/
def sum? (a b : UInt32) : Option UInt32 :=
  if a.toNat + b.toNat < UInt32.size then some (a + b) else none

/-- A number as one of 32 bits, unless it has more. -/
def word? (n : Nat) : Option UInt32 := if n < UInt32.size then some n.toUInt32 else none

theorem sum?_eq {a b : Nat} (h : a + b < UInt32.size) :
    sum? a.toUInt32 b.toUInt32 = some (a + b).toUInt32 := by
  have ha : a.toUInt32.toNat = a := UInt32.toNat_ofNat_of_lt' (by omega)
  have hb : b.toUInt32.toNat = b := UInt32.toNat_ofNat_of_lt' (by omega)
  have hsum : (a + b).toUInt32.toNat = a + b := UInt32.toNat_ofNat_of_lt' h
  rw [sum?, ha, hb, if_pos h]
  refine congrArg some (UInt32.toNat_inj.1 ?_)
  rw [UInt32.toNat_add, ha, hb, hsum]
  exact Nat.mod_eq_of_lt h

theorem word?_eq {n : Nat} (h : n < UInt32.size) : word? n = some n.toUInt32 := if_pos h

namespace Mini

open Text
open Json (byteSize)

/-! ## Reading without overflow -/

namespace Program

/-- The program of some lines, where the positions are sums of 32 bits; none if one overflows. -/
def ofLines? (index : Nat) (offset : UInt32) : List (List Char) → Option Program
  | [] => some empty
  | line :: rest => do
    let length ← word? (size line)
    let stop ← sum? offset length
    let next ← sum? offset (← sum? length 1)
    let others ← ofLines? (index + 1) next rest
    if (trim line).isEmpty then return others
    else
      let number ← sum? (← word? index) 1
      let columns ← word? (trimEnd line).length
      return others.push ⟨offset, stop⟩ (.onLine number columns) (Line.read (trim line))

/-- The program of a text, where the positions are sums of 32 bits; none if one overflows. -/
def read? (content : String) : Option Program := ofLines? 0 0 (pieces '\n' content.toList)

end Program

theorem length_trimEnd_le (cs : List Char) : (trimEnd cs).length ≤ byteSize cs := by
  have hprefix := (List.rdropWhile_prefix isBlank cs).length_le
  have hbytes := length_le_byteSize cs
  rw [utf8ByteSize_ofList] at hbytes
  exact Nat.le_trans hprefix hbytes

/-- Nothing overflows if the bytes up to the end of the lines, and a line break behind them, can be
counted; no more lines than bytes are before them. -/
theorem ofLines?_eq {index offset : Nat} {lines : List (List Char)} (hindex : index ≤ offset)
    (h : offset + byteSize (['\n'].intercalate lines) + 1 < UInt32.size) :
    Program.ofLines? index offset.toUInt32 lines = some (Program.ofLines index offset lines) := by
  induction lines generalizing index offset with
  | nil => rfl
  | cons line lines ih =>
    obtain ⟨hline, hrest⟩ : offset + byteSize line + 1 < UInt32.size ∧
        Program.ofLines? (index + 1) (offset + byteSize line + 1).toUInt32 lines =
          some (Program.ofLines (index + 1) (offset + byteSize line + 1) lines) := by
      cases lines with
      | nil =>
        rw [List.intercalate_singleton] at h
        exact ⟨h, rfl⟩
      | cons next lines =>
        have hbreak : byteSize ['\n'] = 1 := rfl
        rw [List.intercalate_cons_cons, byteSize_append, byteSize_append] at h
        exact ⟨by omega, ih (by omega) (by omega)⟩
    have hlength : word? (Program.size line) = some (byteSize line).toUInt32 :=
      word?_eq (show byteSize line < UInt32.size by omega)
    have hstop : sum? offset.toUInt32 (byteSize line).toUInt32 =
        some (offset + byteSize line).toUInt32 := sum?_eq (by omega)
    have hmore : sum? (byteSize line).toUInt32 1 = some (byteSize line + 1).toUInt32 :=
      sum?_eq (b := 1) (by omega)
    have hnext : sum? offset.toUInt32 (byteSize line + 1).toUInt32 =
        some (offset + byteSize line + 1).toUInt32 := sum?_eq (by omega)
    have hnumber : sum? index.toUInt32 1 = some (index + 1).toUInt32 :=
      sum?_eq (b := 1) (by omega)
    have hcolumns := length_trimEnd_le line
    unfold Program.ofLines? Program.ofLines
    simp only [Option.bind_eq_bind, hlength, Option.bind_some, hstop, hmore, hnext]
    rw [hrest]
    simp only [Option.bind_some, word?_eq (show index < UInt32.size by omega), hnumber,
      word?_eq (show (trimEnd line).length < UInt32.size by omega)]
    split <;> rfl

/-- **Nothing overflows** in a text with fewer bytes than the greatest number of 32 bits. -/
theorem read?_eq {content : String} (h : content.utf8ByteSize + 1 < UInt32.size) :
    Program.read? content = some (Program.read content) := by
  refine @ofLines?_eq 0 0 _ (Nat.le_refl 0) ?_
  rw [intercalate_pieces, ← utf8ByteSize_eq]
  omega

/-! ## What lines give -/

/-- A comment begins with two slashes and is no reference. -/
def IsComment (line : List Char) : Prop :=
  "//".toList <+: trim line ∧ ∀ path, Line.read (trim line) ≠ .statement (.reference path)

theorem read_eq_comment_iff {cs : List Char} : Line.read cs = .comment ↔
    "//".toList <+: cs ∧ ∀ path, Line.read cs ≠ .statement (.reference path) := by
  unfold Line.read
  by_cases hcrash : cs = crashText.toList
  · rw [if_pos hcrash, hcrash]
    exact ⟨nofun, fun h => absurd h.1 (by decide)⟩
  rw [if_neg hcrash]
  cases hreference : after? "///".toList cs with
  | some rest =>
    have hlead : "//".toList <+: cs := by
      rw [after?_eq_some_iff.1 hreference]
      exact ⟨'/' :: rest, rfl⟩
    dsimp only
    cases readReference? rest with
    | none => exact ⟨fun _ => ⟨hlead, fun _ => nofun⟩, fun _ => rfl⟩
    | some path => exact ⟨nofun, fun h => absurd rfl (h.2 path)⟩
  | none =>
    dsimp only
    cases hcomment : after? "//".toList cs with
    | some rest =>
      have hlead : "//".toList <+: cs := ⟨rest, (after?_eq_some_iff.1 hcomment).symm⟩
      exact ⟨fun _ => ⟨hlead, fun _ => nofun⟩, fun _ => rfl⟩
    | none =>
      constructor
      · intro h
        rw [if_neg (by simp)] at h
        split at h <;> cases h
      · rintro ⟨⟨rest, hrest⟩, -⟩
        rw [after?_eq_some_iff.2 hrest.symm] at hcomment
        cases hcomment

theorem trim_eq_nil_iff {cs : List Char} : trim cs = [] ↔ AllBlank cs := by
  constructor
  · intro h c hc
    refine Classical.byContradiction fun hn => ?_
    have hm := mem_trim hc (Bool.eq_false_iff.2 hn)
    rw [h] at hm
    cases hm
  · intro h
    have hstart : trimStart cs = [] := List.dropWhile_eq_nil_iff.2 h
    rw [trim, hstart]
    rfl

/-- Blank lines and comments say nothing, and only these. -/
theorem ofText_eq_comment_iff {line : List Char} :
    Line.ofText line = .comment ↔ AllBlank line ∨ IsComment line := by
  unfold Line.ofText IsComment
  rw [← trim_eq_nil_iff, ← read_eq_comment_iff]
  by_cases h : trim line = []
  · simp [h]
  · rw [if_neg (by simpa using h)]
    exact ⟨.inr, fun hor => hor.resolve_left h⟩

/-- The statement on a row, with its place. -/
def item? (r : Row) : Option Located :=
  (Line.ofText r.line).statement?.map fun x =>
    ⟨x, Program.spanAt r.offset r.line, Program.locationAt r.index r.line⟩

/-- The error for a row that is no statement. -/
def error? (r : Row) : Option Diagnostic :=
  if (Line.ofText r.line).isInvalid then
    some (statementExpected (Program.spanAt r.offset r.line) (Program.locationAt r.index r.line))
  else none

theorem ofLines_eq (index offset : Nat) (lines : List (List Char)) :
    Program.ofLines index offset lines =
      ⟨(rows index offset lines).filterMap item?, (rows index offset lines).filterMap error?⟩ := by
  induction lines generalizing index offset with
  | nil => rfl
  | cons line lines ih =>
    have hrest := ih (index + 1) (offset + byteSize line + 1)
    rw [rows, List.filterMap_cons, List.filterMap_cons]
    unfold Program.ofLines item? error? Line.ofText
    rw [show Program.size line = byteSize line from rfl, hrest]
    dsimp only
    split
    · rfl
    · cases Line.read (trim line) <;> rfl

theorem item?_eq_some_iff {r : Row} {x : Located} : item? r = some x ↔
    Line.ofText r.line = .statement x.statement ∧ x.span = Program.spanAt r.offset r.line ∧
      x.loc = Program.locationAt r.index r.line := by
  obtain ⟨statement, span, loc⟩ := x
  unfold item?
  cases Line.ofText r.line <;> simp [Line.statement?, eq_comm]

theorem error?_eq_some_iff {r : Row} {e : Diagnostic} : error? r = some e ↔
    Line.ofText r.line = .invalid ∧ e = statementExpected (Program.spanAt r.offset r.line)
      (Program.locationAt r.index r.line) := by
  unfold error?
  cases Line.ofText r.line <;> simp [Line.isInvalid, eq_comm]

/-- The rows of a text. -/
def lineRows (content : String) : List Row := rows 0 0 (pieces '\n' content.toList)

/-- **A text has what its rows give**, in order. -/
theorem read_eq (content : String) : Program.read content =
    ⟨(lineRows content).filterMap item?, (lineRows content).filterMap error?⟩ :=
  ofLines_eq 0 0 _

/-! ## Where lines stand -/

/-- The span of a line is its bytes, and the location begins at its first column and ends behind
its last character that is not blank. -/
structure Covers (content : String) (index : Nat) (line : List Char) (span : Span)
    (loc : Location) : Prop where
  stands : ∃ before after, IsLine content.toList index before line after ∧
    span.start.toNat = (String.ofList before).utf8ByteSize ∧
    span.stop.toNat = (String.ofList (before ++ line)).utf8ByteSize
  slice : content.toUTF8.extract span.start.toNat span.stop.toNat = (String.ofList line).toUTF8
  number : loc.start.line.toNat = index + 1
  column : loc.start.column.toNat = 0
  same : loc.stop.line = loc.start.line
  length : loc.stop.column.toNat = (trimEnd line).length

/-- Two spans without a common byte, and not even next to each other. -/
def Apart (a b : Span) : Prop :=
  a.stop.toNat < b.start.toNat ∨ b.stop.toNat < a.start.toNat

theorem Apart.symm {a b : Span} (h : Apart a b) : Apart b a := Or.symm h

section Places

variable {content : String} {r r' : Row}

theorem le_of_mem_rows_content (hr : r ∈ lineRows content) :
    r.index ≤ r.offset ∧ r.offset + byteSize r.line ≤ content.utf8ByteSize := by
  obtain ⟨before, after, hline, hbefore⟩ := exists_isLine_of_mem_rows hr
  have htotal : content.utf8ByteSize = byteSize before + byteSize r.line + byteSize after := by
    rw [utf8ByteSize_eq, hline.text, byteSize_append, byteSize_append]
  have hbreaks := hline.breaks ▸ List.count_le_length (a := '\n') (l := before)
  have hlength := length_le_byteSize before
  rw [utf8ByteSize_ofList] at hlength
  omega

theorem toNat_spanAt (h : content.utf8ByteSize + 1 < UInt32.size)
    (hr : r ∈ lineRows content) :
    (Program.spanAt r.offset r.line).start.toNat = r.offset ∧
      (Program.spanAt r.offset r.line).stop.toNat = r.offset + byteSize r.line := by
  have hle := le_of_mem_rows_content hr
  exact ⟨UInt32.toNat_ofNat_of_lt' (by omega),
    UInt32.toNat_ofNat_of_lt' (show r.offset + byteSize r.line < UInt32.size by omega)⟩

/-- **The span and the location of a row** are those of its line. -/
theorem covers_of_mem_rows (h : content.utf8ByteSize + 1 < UInt32.size)
    (hr : r ∈ lineRows content) :
    Covers content r.index r.line (Program.spanAt r.offset r.line)
      (Program.locationAt r.index r.line) := by
  obtain ⟨before, after, hline, hbefore⟩ := exists_isLine_of_mem_rows hr
  obtain ⟨hstart, hstop⟩ := toNat_spanAt h hr
  have hle := le_of_mem_rows_content hr
  have hlength := length_trimEnd_le r.line
  have hend : r.offset + byteSize r.line = byteSize (before ++ r.line) := by
    rw [byteSize_append, hbefore]
  refine ⟨⟨before, after, hline, ?_, ?_⟩, ?_, ?_, rfl, rfl, ?_⟩
  · rw [hstart, utf8ByteSize_ofList, hbefore]
  · rw [hstop, utf8ByteSize_ofList, hend]
  · rw [hstart, hstop, hend, ← hbefore]
    exact extract_toUTF8 hline.text
  · exact UInt32.toNat_ofNat_of_lt' (show r.index + 1 < UInt32.size by omega)
  · exact UInt32.toNat_ofNat_of_lt' (show (trimEnd r.line).length < UInt32.size by omega)

theorem pairwise_apart (h : content.utf8ByteSize + 1 < UInt32.size) :
    (lineRows content).Pairwise fun r r' =>
      Apart (Program.spanAt r.offset r.line) (Program.spanAt r'.offset r'.line) := by
  refine (pairwise_rows 0 0 _).imp_of_mem fun {r r'} hr hr' hlt => .inl ?_
  rw [(toNat_spanAt h hr).2, (toNat_spanAt h hr').1]
  exact hlt.2

end Places

/-! ## The whole text -/

theorem forall₂_filterMap {α β γ : Type} {R : γ → β → Prop} {f : α → Option β} {g : α → γ}
    {l : List α} (h : ∀ a ∈ l, ∀ b, f a = some b → R (g a) b) :
    List.Forall₂ R ((l.filter fun a => (f a).isSome).map g) (l.filterMap f) := by
  induction l with
  | nil => exact .nil
  | cons a l ih =>
    have hrest := ih fun a' ha' => h a' (List.mem_cons_of_mem a ha')
    cases hf : f a with
    | none => simpa [hf] using hrest
    | some b =>
      have hb := h a List.mem_cons_self b hf
      rw [List.filter_cons_of_pos (by simp [hf]), List.map_cons, List.filterMap_cons_some hf]
      exact .cons hb hrest

/-- The statements and the errors of a text, by the indices of the lines that give them. -/
structure Positioned (content : String) (p : Program) (statements errors : List Nat) : Prop where
  statementsInOrder : statements.Pairwise (· < ·)
  errorsInOrder : errors.Pairwise (· < ·)
  /-- Each line that is neither blank nor a comment gives one, and no other line does. -/
  covered : ∀ i, i ∈ statements ∨ i ∈ errors ↔ ∃ before line after,
    IsLine content.toList i before line after ∧ ¬AllBlank line ∧ ¬IsComment line
  /-- No line gives both. -/
  disjoint : ∀ i ∈ statements, i ∉ errors
  items : List.Forall₂ (fun i x => ∃ line, Line.read (trim line) = .statement x.statement ∧
    Covers content i line x.span x.loc) statements p.items
  faults : List.Forall₂ (fun i e => ∃ line loc, Line.read (trim line) = .invalid ∧
    e = statementExpected e.span loc ∧ Covers content i line e.span loc) errors p.errors
  apart : (p.items.map (·.span) ++ p.errors.map (·.span)).Pairwise Apart

section Whole

variable {content : String}

/-- The indices of the rows that give something. -/
def indices {β : Type} (f : Row → Option β) (rs : List Row) : List Nat :=
  (rs.filter fun r => (f r).isSome).map (·.index)

theorem mem_indices_iff {β : Type} {f : Row → Option β} {rs : List Row} {i : Nat} :
    i ∈ indices f rs ↔ ∃ r ∈ rs, (f r).isSome ∧ r.index = i := by
  simp [indices, and_assoc]

theorem pairwise_indices {β : Type} (f : Row → Option β) (index offset : Nat)
    (lines : List (List Char)) : (indices f (rows index offset lines)).Pairwise (· < ·) :=
  have hrows : (rows index offset lines).Pairwise fun r r' => r.index < r'.index :=
    (pairwise_rows index offset lines).imp fun h => h.1
  List.pairwise_map.2 (hrows.filter _)

theorem isSome_item?_iff {r : Row} :
    (item? r).isSome ↔ ∃ s, Line.ofText r.line = .statement s := by
  unfold item?
  cases Line.ofText r.line <;> simp [Line.statement?]

theorem isSome_error?_iff {r : Row} : (error? r).isSome ↔ Line.ofText r.line = .invalid := by
  unfold error?
  cases Line.ofText r.line <;> simp [Line.isInvalid]

theorem isSome_or_isSome_iff {r : Row} :
    (item? r).isSome ∨ (error? r).isSome ↔ ¬AllBlank r.line ∧ ¬IsComment r.line := by
  rw [isSome_item?_iff, isSome_error?_iff, ← not_or, ← ofText_eq_comment_iff]
  cases Line.ofText r.line <;> simp

theorem read_eq_of_ofText {line : List Char} {k : Line} (h : Line.ofText line = k)
    (hk : k ≠ .comment) : Line.read (trim line) = k := by
  unfold Line.ofText at h
  split at h
  · exact absurd h.symm hk
  · exact h

theorem items_forall₂ (h : content.utf8ByteSize + 1 < UInt32.size) :
    List.Forall₂ (fun i x => ∃ line, Line.read (trim line) = .statement x.statement ∧
      Covers content i line x.span x.loc)
      (indices item? (lineRows content)) (Program.read content).items := by
  rw [read_eq]
  refine forall₂_filterMap fun r hr x hx => ?_
  obtain ⟨htext, hspan, hloc⟩ := item?_eq_some_iff.1 hx
  refine ⟨r.line, read_eq_of_ofText htext nofun, ?_⟩
  rw [hspan, hloc]
  exact covers_of_mem_rows h hr

theorem errors_forall₂ (h : content.utf8ByteSize + 1 < UInt32.size) :
    List.Forall₂ (fun i e => ∃ line loc, Line.read (trim line) = .invalid ∧
      e = statementExpected e.span loc ∧ Covers content i line e.span loc)
      (indices error? (lineRows content)) (Program.read content).errors := by
  rw [read_eq]
  refine forall₂_filterMap fun r hr e he => ?_
  obtain ⟨htext, rfl⟩ := error?_eq_some_iff.1 he
  exact ⟨r.line, _, read_eq_of_ofText htext nofun, rfl, covers_of_mem_rows h hr⟩

theorem spans_apart (h : content.utf8ByteSize + 1 < UInt32.size) :
    ((Program.read content).items.map (·.span) ++
      (Program.read content).errors.map (·.span)).Pairwise Apart := by
  have hrows := pairwise_apart h
  have hitem : ∀ {r x}, item? r = some x → x.span = Program.spanAt r.offset r.line :=
    fun hx => (item?_eq_some_iff.1 hx).2.1
  have herror : ∀ {r e}, error? r = some e → e.span = Program.spanAt r.offset r.line :=
    fun he => congrArg (·.span) (error?_eq_some_iff.1 he).2
  rw [read_eq]
  refine List.pairwise_append.2 ⟨?_, ?_, ?_⟩
  · refine List.pairwise_map.2 (List.pairwise_filterMap.2 (hrows.imp fun hapart x hx y hy => ?_))
    rwa [hitem hx, hitem hy]
  · refine List.pairwise_map.2 (List.pairwise_filterMap.2 (hrows.imp fun hapart x hx y hy => ?_))
    rwa [herror hx, herror hy]
  · intro a ha b hb
    obtain ⟨x, hx, rfl⟩ := List.mem_map.1 ha
    obtain ⟨e, he, rfl⟩ := List.mem_map.1 hb
    obtain ⟨r, hr, hx⟩ := List.mem_filterMap.1 hx
    obtain ⟨r', hr', he⟩ := List.mem_filterMap.1 he
    have hne : r ≠ r' := by
      rintro rfl
      have htext := (item?_eq_some_iff.1 hx).1
      rw [(error?_eq_some_iff.1 he).1] at htext
      cases htext
    have hsymm : Std.Symm fun r r' : Row =>
        Apart (Program.spanAt r.offset r.line) (Program.spanAt r'.offset r'.line) :=
      ⟨fun _ _ => Apart.symm⟩
    rw [hitem hx, herror he]
    exact hrows.forall hr hr' hne

theorem mem_or_mem_indices_iff {i : Nat} :
    i ∈ indices item? (lineRows content) ∨
        i ∈ indices error? (lineRows content) ↔
      ∃ before line after, IsLine content.toList i before line after ∧
        ¬AllBlank line ∧ ¬IsComment line := by
  have hrow : i ∈ indices item? (lineRows content) ∨
        i ∈ indices error? (lineRows content) ↔
      ∃ r ∈ lineRows content,
        ((item? r).isSome ∨ (error? r).isSome) ∧ r.index = i := by
    simp only [mem_indices_iff, ← exists_or, or_and_right, and_or_left]
  rw [hrow]
  constructor
  · rintro ⟨r, hr, hgives, rfl⟩
    obtain ⟨before, after, hline, -⟩ := exists_isLine_of_mem_rows hr
    exact ⟨before, r.line, after, hline, isSome_or_isSome_iff.1 hgives⟩
  · rintro ⟨before, line, after, hline, hsays⟩
    obtain ⟨r, hr, hindex, rfl⟩ := exists_row_of_isLine hline
    exact ⟨r, hr, isSome_or_isSome_iff.2 hsays, hindex⟩

theorem not_mem_indices_of_mem {i : Nat}
    (h : i ∈ indices item? (lineRows content)) :
    i ∉ indices error? (lineRows content) := by
  intro h'
  obtain ⟨r, hr, hitem, rfl⟩ := mem_indices_iff.1 h
  obtain ⟨r', hr', herror, hindex⟩ := mem_indices_iff.1 h'
  obtain ⟨s, hs⟩ := isSome_item?_iff.1 hitem
  obtain ⟨b, a, hline, -⟩ := exists_isLine_of_mem_rows hr
  obtain ⟨b', a', hline', -⟩ := exists_isLine_of_mem_rows hr'
  rw [hindex] at hline'
  have hinvalid := isSome_error?_iff.1 herror
  rw [← hline.line_eq hline', hs] at hinvalid
  cases hinvalid

end Whole

/-- **The positions of a text are exact**: in a text with fewer bytes than the greatest number of
32 bits nothing overflows, the lines that are neither blank nor comments give one statement or one
error each, in their order, and each has the span and the location of its line. -/
theorem positions_exact (content : String) (h : content.utf8ByteSize < UInt32.size - 1) :
    Program.read? content = some (Program.read content) ∧
      ∃ statements errors, Positioned content (Program.read content) statements errors := by
  have hsize : content.utf8ByteSize + 1 < UInt32.size := by omega
  refine ⟨read?_eq hsize, indices item? (lineRows content),
    indices error? (lineRows content), ?_⟩
  exact {
    statementsInOrder := pairwise_indices _ _ _ _
    errorsInOrder := pairwise_indices _ _ _ _
    covered := fun i => mem_or_mem_indices_iff
    disjoint := fun i => not_mem_indices_of_mem
    items := items_forall₂ hsize
    faults := errors_forall₂ hsize
    apart := spans_apart hsize }

/-- A text with letters of two bytes, a carriage return, an empty line, a line that is no statement
and a comment without line break. -/
theorem positions_exact_mixed :
    let content := "const a = 'é';\r\n\n  what is this\n// note"
    content.utf8ByteSize < UInt32.size - 1 ∧
      Program.read? content = some ⟨
        [⟨.binding false .constant "a" (.literal "'é'"), ⟨0, 16⟩, .onLine 1 14⟩],
        [statementExpected ⟨18, 32⟩ (.onLine 3 14)]⟩ ∧
      ∃ statements errors, Positioned content (Program.read content) statements errors := by
  intro content
  have hsize : content.utf8ByteSize < UInt32.size - 1 := by decide
  refine ⟨hsize, ?_, (positions_exact content hsize).2⟩
  rw [(positions_exact content hsize).1]
  decide +kernel

end Mini

end CompileCache
