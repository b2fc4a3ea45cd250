import CompileCache.Proofs.Mini.Numerals
import CompileCache.Proofs.Mini.Positions
import CompileCache.Proofs.Mini.Written

/-!
# Grammar — the documented forms of statements, and what they are read as

* `Value.Documented`, `Typed`, `IsSpecifier`: the parts of statements as they are documented.
* `Form`, **`Documented`**: the lines for a statement, with or without a semicolon.
* `Value.asRead`, `Statement.asRead`, `Statement.BindsUnbounded`: names of what is no finite number
  are read as numbers.
* `exists_formSays`, `Documented.lineSays`: what a line for a statement is read as.
* `exists_pieces_padded`, `read_padded`: blanks and line breaks around a line.
* **`grammar_exact`**: a documented line is read as its statement, but for such names.
-/

namespace CompileCache.Mini

open Text

variable {cs : List Char}

/-! ## Documented forms -/

/-- A value that is written as its text: a quoted text, a number, a truth value, or a name that is
no truth value. -/
inductive Value.Documented : Value → Prop where
  | quoted {q : Char} {body : List Char} (mark : q = '"' ∨ q = '\x27') (alone : q ∉ body)
      (line : '\n' ∉ body) : Documented (.literal (String.ofList (q :: (body ++ [q]))))
  | number (n : Numeral) : Documented (.literal (String.ofList n.chars))
  | truth {text : String} (h : text ∈ truthValues) : Documented (.literal text)
  | name {n : String} (h : isName n.toList = true) (other : n ∉ truthValues) : Documented (.name n)

/-- What can stand for a type. -/
structure IsType (cs : List Char) : Prop where
  tight : Tight cs
  ne_nil : cs ≠ []
  single : ';' ∉ cs
  line : '\n' ∉ cs

/-- A name with its type. -/
structure Typed where
  name : String
  type : List Char
  isName : isName name.toList = true
  isType : IsType type

/-- A name and its type as they are written. -/
def Typed.chars (m : Typed) : List Char := m.name.toList ++ ": ".toList ++ m.type

/-- A member of a module as it is written. -/
def Typed.member (m : Typed) : List Char := "export const ".toList ++ m.chars

/-- The members of a module as they are written, each with a semicolon behind it. -/
def membersClause (members : List Typed) : List Char :=
  members.flatMap (fun m => ' ' :: (m.member ++ [';'])) ++ [' ']

/-- A specifier and members in braces. -/
def moduleClause (specifier : List Char) (members : List Typed) : List Char :=
  inQuotes specifier ++ " \x7b".toList ++ membersClause members ++ "\x7d".toList

/-- A specifier that can be quoted on one line. -/
def IsSpecifier (specifier : String) : Prop :=
  '"' ∉ specifier.toList ∧ '\n' ∉ specifier.toList

/-- The statements that a semicolon may stand behind, as they are written without it. -/
inductive Form : Statement → List Char → Prop where
  | imports {names : List String} {specifier : String} (ne_nil : names ≠ [])
      (hnames : ∀ n ∈ names, isName n.toList = true) (h : IsSpecifier specifier) :
      Form (.imports names specifier) ("import ".toList ++ importClause names specifier.toList)
  | exportAll {specifier : String} (h : IsSpecifier specifier) :
      Form (.exportAll specifier) ("export * from ".toList ++ inQuotes specifier.toList)
  | binding (exported : Bool) (keyword : Keyword) {name : String} {v : Value}
      (hname : isName name.toList = true) (hv : v.Documented) :
      Form (.binding exported keyword name v) (bindingLead exported keyword ++ bindingClause name v)
  | declareModule {specifier : String} (h : IsSpecifier specifier) (members : List Typed) :
      Form (.declareModule specifier (members.map (·.name)))
        ("declare module ".toList ++ moduleClause specifier.toList members)
  | declareConst (m : Typed) : Form (.declareConst m.name) ("declare const ".toList ++ m.chars)

/-- **The lines for a statement.** -/
inductive Documented : Statement → List Char → Prop where
  | reference {path : String} (h : IsSpecifier path) :
      Documented (.reference path)
        ("/// <reference path=".toList ++ inQuotes path.toList ++ " />".toList)
  | plain {x : Statement} {cs : List Char} (h : Form x cs) : Documented x cs
  | terminated {x : Statement} {cs : List Char} (h : Form x cs) : Documented x (cs ++ [';'])

/-! ## What they are read as -/

/-- A value as it is read: the name of what is no finite number is read as a number. -/
def Value.asRead : Value → Value
  | .literal text => .literal text
  | .name n => if namesUnbounded n then .literal n else .name n

/-- A statement as it is read. -/
def Statement.asRead : Statement → Statement
  | .binding exported keyword name v => .binding exported keyword name v.asRead
  | x => x

/-- Whether the value of a binding is the name of what is no finite number. -/
def Statement.BindsUnbounded : Statement → Prop
  | .binding _ _ _ (.name n) => namesUnbounded n = true
  | _ => False

theorem asRead_eq_self_iff {x : Statement} : x.asRead = x ↔ ¬x.BindsUnbounded := by
  cases x with
  | binding exported keyword name v =>
    cases v with
    | literal text => simp [Statement.asRead, Value.asRead, Statement.BindsUnbounded]
    | name n =>
      by_cases h : namesUnbounded n = true <;>
        simp [Statement.asRead, Value.asRead, Statement.BindsUnbounded, h]
  | _ => simp [Statement.asRead, Statement.BindsUnbounded]

theorem text_asRead (v : Value) : v.asRead.text = v.text := by
  cases v with
  | literal text => rfl
  | name n =>
    rw [Value.asRead]
    split <;> rfl

theorem quoted?_marked {q : Char} {b : List Char} (hb : AllBlank b) (hq : q = '"' ∨ q = '\x27')
    (h : q ∉ cs) (rest : List Char) :
    quoted? (b ++ q :: (cs ++ q :: rest)) = some (cs, rest) := by
  have hblank : isBlank q = false := by rcases hq with rfl | rfl <;> decide
  unfold quoted?
  rw [trimStart_append_of_allBlank hb, trimStart_cons_of_not_isBlank hblank]
  dsimp only
  rw [if_pos (by simpa using hq), cut?_append h]

theorem quoted?_inQuotes (h : '"' ∉ cs) (rest : List Char) :
    quoted? (inQuotes cs ++ rest) = some (cs, rest) := by
  have hmarked := quoted?_marked allBlank_nil (.inl rfl) h rest
  simpa [inQuotes] using hmarked

theorem Value.Documented.getLast?_ne {v : Value} (h : v.Documented) :
    v.text.toList.getLast? ≠ some ';' := by
  cases h with
  | quoted mark =>
    intro hlast
    rw [Value.text, String.toList_ofList, ← List.cons_append, List.getLast?_concat,
      Option.some.injEq] at hlast
    rcases mark with rfl | rfl <;> cases hlast
  | number n =>
    intro hlast
    rw [Value.text, String.toList_ofList] at hlast
    have hm := Numeral.inNumbers_of_mem (List.mem_of_getLast? hlast)
    revert hm
    decide
  | truth h =>
    simp only [truthValues, List.mem_cons, List.not_mem_nil, or_false] at h
    rcases h with rfl | rfl <;> decide
  | name h =>
    exact fun hlast => not_mem_of_isName h (by decide) (List.mem_of_getLast? hlast)

theorem proper_literal {text : String} (h : Tight text.toList) (hline : '\n' ∉ text.toList)
    (hliteral : isLiteral text.toList = true) : (Value.literal text).Proper := by
  refine ⟨h, hline, ?_⟩
  unfold readValue? Value.text
  dsimp only
  rw [h.trim_eq, hliteral, if_pos rfl, String.ofList_toList]

/-- **A documented value** is read as itself, but for names of what is no finite number. -/
theorem Value.Documented.proper_asRead {v : Value} (h : v.Documented) : v.asRead.Proper := by
  cases h with
  | @quoted q body mark alone line =>
    have hblank : isBlank q = false := by rcases mark with rfl | rfl <;> decide
    have hbreak : '\n' ≠ q := by rcases mark with rfl | rfl <;> decide
    refine proper_literal ?_ ?_ ?_ <;> rw [String.toList_ofList]
    · exact tight_of_ends hblank body hblank
    · simp [hbreak, line]
    · have hquoted : quoted? (q :: (body ++ [q])) = some (body, []) :=
        quoted?_marked allBlank_nil mark alone []
      unfold isLiteral quotedAlone?
      rw [hquoted]
      rfl
  | number n =>
    have hblank : ∀ c ∈ n.chars, isBlank c = false := fun c hc =>
      isBlank_of_inNumbers (Numeral.inNumbers_of_mem hc)
    refine proper_literal ?_ ?_ ?_ <;> rw [String.toList_ofList]
    · exact ⟨fun c hc => hblank c (List.mem_of_mem_head? hc),
        fun c hc => hblank c (List.mem_of_mem_getLast? hc)⟩
    · exact fun hm => absurd (hblank _ hm) (by decide)
    · rw [isLiteral, n.isNumber_chars, Bool.or_true, Bool.true_or]
  | truth h =>
    simp only [truthValues, List.mem_cons, List.not_mem_nil, or_false] at h
    rcases h with rfl | rfl <;>
      exact proper_literal (tight_of_isName (by decide)) (by decide) rfl
  | @name n h other =>
    have hliteral := isLiteral_name h other
    have hline : '\n' ∉ n.toList := not_mem_of_isName h (by decide)
    rw [Value.asRead]
    split
    · next hn => exact proper_literal (tight_of_isName h) hline (hliteral.trans hn)
    · next hn =>
      refine ⟨tight_of_isName h, hline, ?_⟩
      unfold readValue? Value.text
      dsimp only
      rw [(tight_of_isName h).trim_eq, hliteral, if_neg hn, if_pos h, String.ofList_toList]

/-! ## Declarations -/

theorem tight_typed (m : Typed) : Tight m.chars := by
  refine m.isType.tight.append (fun c hc => ?_) m.isType.ne_nil
  rw [List.head?_append_of_ne_nil _ (ne_nil_of_isName m.isName)] at hc
  exact (tight_of_isName m.isName).head c hc

theorem not_mem_typed (m : Typed) {c : Char} (hname : continuesName c = false)
    (hcolon : c ∉ ": ".toList) (htype : c ∉ m.type) : c ∉ m.chars := by
  have hm := not_mem_of_isName m.isName hname
  simp only [Typed.chars, List.mem_append, not_or]
  exact ⟨⟨hm, hcolon⟩, htype⟩

theorem cut?_typed (m : Typed) : cut? ':' m.chars = some (m.name.toList, ' ' :: m.type) := by
  simpa [Typed.chars] using cut?_append (not_mem_of_isName m.isName (by decide)) (' ' :: m.type)

theorem readConst?_typed (m : Typed) : readConst? m.chars = some (.declareConst m.name) := by
  unfold readConst?
  rw [cut?_typed]
  simp only [Option.bind_eq_bind, Option.bind_some, (tight_of_isName m.isName).trim_eq, m.isName,
    if_true, String.ofList_toList]
  rfl

theorem readMember?_member (m : Typed) : readMember? m.member = some m.name := by
  have hafter : after? "export const ".toList m.member = some m.chars :=
    after?_eq_some_iff.2 rfl
  unfold readMember?
  rw [hafter]
  simp only [Option.bind_eq_bind, Option.bind_some, cut?_typed, (tight_of_isName m.isName).trim_eq,
    m.isName, if_true, String.ofList_toList]
  rfl

theorem ne_nil_typed (m : Typed) : m.chars ≠ [] :=
  List.append_ne_nil_of_right_ne_nil _ m.isType.ne_nil

theorem tight_member (m : Typed) : Tight m.member := by
  refine (tight_typed m).append (fun c hc => ?_) (ne_nil_typed m)
  cases hc
  decide

theorem not_mem_member (m : Typed) {c : Char} (hname : continuesName c = false)
    (hlead : c ∉ "export const ".toList) (hcolon : c ∉ ": ".toList) (htype : c ∉ m.type) :
    c ∉ m.member := fun hm =>
  (List.mem_append.1 hm).elim hlead (not_mem_typed m hname hcolon htype)

theorem parts_membersClause (members : List Typed) :
    parts ';' (membersClause members) = members.map Typed.member := by
  induction members with
  | nil => decide
  | cons m members ih =>
    have hnot : ';' ∉ m.member :=
      not_mem_member m (by decide) (by decide) (by decide) m.isType.single
    have hhead : parts ';' ([' '] ++ m.member ++ []) = [m.member] :=
      parts_padded allBlank_space allBlank_nil (by decide) hnot (tight_member m)
        (List.cons_ne_nil _ _)
    have hsplit : membersClause (m :: members) =
        ([' '] ++ m.member ++ []) ++ ';' :: membersClause members := by
      simp [membersClause]
    rw [hsplit, parts_append_sep, hhead, ih]
    rfl

theorem readModule?_moduleClause {specifier : String} (h : '"' ∉ specifier.toList)
    (members : List Typed) : readModule? (moduleClause specifier.toList members) =
      some (.declareModule specifier (members.map (·.name))) := by
  have hquoted : quoted? (moduleClause specifier.toList members) =
      some (specifier.toList, " \x7b".toList ++ membersClause members ++ "\x7d".toList) := by
    rw [← quoted?_inQuotes h]
    simp [moduleClause]
  have htrim : trim (" \x7b".toList ++ membersClause members ++ "\x7d".toList) =
      '\x7b' :: (membersClause members ++ ['\x7d']) := by
    have htight := tight_of_ends (c := '\x7b') (d := '\x7d') (by decide) (membersClause members)
      (by decide)
    simpa using trim_padded allBlank_space allBlank_nil htight
  have hafter : after? ['\x7b'] ('\x7b' :: (membersClause members ++ ['\x7d'])) =
      some (membersClause members ++ ['\x7d']) := after?_eq_some_iff.2 rfl
  have hbefore : before? ['\x7d'] (membersClause members ++ ['\x7d']) =
      some (membersClause members) := before?_eq_some_iff.2 rfl
  have hmembers : (parts ';' (membersClause members)).mapM readMember? =
      some (members.map (·.name)) := by
    have hread : readMember? ∘ Typed.member = fun m => some m.name := funext readMember?_member
    rw [parts_membersClause, List.mapM_map, hread]
    exact List.mapM_pure
  unfold readModule?
  simp only [Option.bind_eq_bind, hquoted, Option.bind_some, htrim, hafter, hbefore, hmembers,
    String.ofList_toList]
  rfl

/-! ## Lines -/

/-- What a form says, and that it does not end in a semicolon. -/
structure FormSays (x : Statement) (cs lead clause : List Char) : Prop where
  text : cs = lead ++ clause
  statement : Says x lead clause
  quotable : x.Quotable
  last : clause.getLast? ≠ some ';'

theorem getLast?_inQuotes_ne (cs : List Char) : (inQuotes cs).getLast? ≠ some ';' := by
  rw [inQuotes, ← List.cons_append, List.getLast?_concat]
  decide

theorem getLast?_append_ne {lead : List Char} (hne : cs ≠ []) (h : cs.getLast? ≠ some ';') :
    (lead ++ cs).getLast? ≠ some ';' := by
  rwa [List.getLast?_append_of_ne_nil lead hne]

theorem quotable_of_none {x : Statement} (h : x.specifier? = none) : x.Quotable := fun _ hs => by
  rw [h] at hs
  cases hs

theorem says_declareModule {specifier : String} (h : IsSpecifier specifier)
    (members : List Typed) : Says (.declareModule specifier (members.map (·.name)))
      "declare module ".toList (moduleClause specifier.toList members) where
  letter := ⟨'d', "eclare module ".toList, rfl, by decide⟩
  tight := by
    have hends := tight_of_ends (c := '"') (d := '\x7d') (by decide)
      (specifier.toList ++ ['"'] ++ " \x7b".toList ++ membersClause members) (by decide)
    simpa [moduleClause, inQuotes] using hends
  ne_nil := List.cons_ne_nil _ _
  line := by
    have hmember : ∀ m ∈ members, '\n' ∉ m.member := fun m _ =>
      not_mem_member m (by decide) (by decide) (by decide) m.isType.line
    have hmembers : '\n' ∉ membersClause members := by
      simpa [membersClause] using hmember
    simp [moduleClause, inQuotes, h.2, hmembers]
  reads := by
    rw [if_pos (quotable_of_none rfl), ← readModule?_moduleClause h.1 members]
    rfl

theorem says_declareConst (m : Typed) :
    Says (.declareConst m.name) "declare const ".toList m.chars where
  letter := ⟨'d', "eclare const ".toList, rfl, by decide⟩
  tight := tight_typed m
  ne_nil := ne_nil_typed m
  line := by
    have hchars : '\n' ∉ m.chars := not_mem_typed m (by decide) (by decide) m.isType.line
    exact fun hm => (List.mem_append.1 hm).elim (by decide) hchars
  reads := by
    rw [if_pos (quotable_of_none rfl), ← readConst?_typed m]
    rfl

/-- **What each form says**: its statement, but for names of what is no finite number. -/
theorem exists_formSays {x : Statement} (h : Form x cs) :
    ∃ lead clause, FormSays x.asRead cs lead clause := by
  cases h with
  | @imports names specifier hne hnames h =>
    have hlast :=
      @getLast?_append_ne _ ('\x7b' :: (joined names ++ ['\x7d', ' ']) ++ "from ".toList)
      (inQuotes_ne_nil specifier.toList) (getLast?_inQuotes_ne _)
    refine ⟨_, _, rfl, says_imports ⟨hne, hnames, h.2⟩, (quotable_iff rfl).2 h.1, ?_⟩
    rwa [List.append_assoc] at hlast
  | exportAll h =>
    exact ⟨_, _, rfl, says_exportAll h.2, (quotable_iff rfl).2 h.1, getLast?_inQuotes_ne _⟩
  | @binding exported keyword name v hname hv =>
    have hclause : bindingClause name v = bindingClause name v.asRead := by
      rw [bindingClause, bindingClause, text_asRead]
    refine ⟨_, _, congrArg _ hclause, says_binding ⟨hname, hv.proper_asRead⟩,
      quotable_of_none rfl, getLast?_append_ne hv.proper_asRead.ne_nil ?_⟩
    rw [text_asRead]
    exact hv.getLast?_ne
  | declareModule h members =>
    refine ⟨_, _, rfl, says_declareModule h members, quotable_of_none rfl, ?_⟩
    exact @getLast?_append_ne "\x7d".toList _ (by decide) (by decide)
  | declareConst m =>
    exact ⟨_, _, rfl, says_declareConst m, quotable_of_none rfl,
      getLast?_append_ne m.isType.ne_nil fun hlast =>
        m.isType.single (List.mem_of_getLast? hlast)⟩

theorem read_reference {path : String} (h : '"' ∉ path.toList) :
    Line.read ("/// <reference path=".toList ++ inQuotes path.toList ++ " />".toList) =
      .statement (.reference path) := by
  have hafter : after? "///".toList
      ("/// <reference path=".toList ++ inQuotes path.toList ++ " />".toList) =
        some (" <reference path=".toList ++ inQuotes path.toList ++ " />".toList) :=
    after?_eq_some_iff.2 rfl
  have htrim : trim (" <reference path=".toList ++ inQuotes path.toList ++ " />".toList) =
      "<reference path=".toList ++ inQuotes path.toList ++ " />".toList := by
    have htight := tight_of_ends (c := '<') (d := '>') (by decide)
      ("reference path=".toList ++ inQuotes path.toList ++ " /".toList) (by decide)
    simpa using trim_padded allBlank_space allBlank_nil htight
  have hlead : after? "<reference path=".toList
      ("<reference path=".toList ++ inQuotes path.toList ++ " />".toList) =
        some (inQuotes path.toList ++ " />".toList) := after?_eq_some_iff.2 (by simp)
  have hreads : readReference? (" <reference path=".toList ++ inQuotes path.toList ++
      " />".toList) = some path := by
    unfold readReference?
    simp only [Option.bind_eq_bind, htrim, hlead, Option.bind_some, quoted?_inQuotes h,
      String.ofList_toList]
    exact if_pos (by decide)
  unfold Line.read
  rw [if_neg (by simp [crashText]), hafter]
  dsimp only
  rw [hreads]

/-- A line that is documented for a statement: tight, without line break, and read as the
statement, but for names of what is no finite number. -/
structure LineSays (x : Statement) (cs : List Char) : Prop where
  tight : Tight cs
  ne_nil : cs ≠ []
  line : '\n' ∉ cs
  reads : Line.read cs = .statement x.asRead

theorem lineSays_of_form {x : Statement} (h : Form x cs) :
    LineSays x cs ∧ LineSays x (cs ++ [';']) := by
  obtain ⟨lead, clause, rfl, hclause, hquotable, hlast⟩ := exists_formSays h
  obtain ⟨c, t, rfl, hc⟩ := hclause.letter
  have hblank : isBlank c = false :=
    isBlank_of_continuesName (continuesName_of_startsName (by simp [startsName, hc]))
  have htight : Tight (c :: t ++ clause) :=
    hclause.tight.append (fun _ hd => Option.some.inj hd ▸ hblank) hclause.ne_nil
  have hhead : ∀ d ∈ (c :: t ++ clause).head?, d ≠ '#' ∧ d ≠ '/' := fun d hd => by
    cases hd
    constructor <;> rintro rfl <;> cases hc
  have hreads : readForm? (c :: t ++ clause) forms = some x.asRead := by
    rw [hclause.reads, if_pos hquotable]
  constructor
  · refine ⟨htight, List.cons_ne_nil _ _, hclause.line, ?_⟩
    rw [read_unterminated htight (getLast?_append_ne hclause.ne_nil hlast) hhead, hreads]
  · refine ⟨tight_of_ends hblank (t ++ clause) (by decide), List.cons_ne_nil _ _, ?_, ?_⟩
    · exact fun hm => (List.mem_append.1 hm).elim hclause.line (by decide)
    · rw [read_terminated htight hhead, hreads]

theorem Documented.lineSays {x : Statement} (h : Documented x cs) : LineSays x cs := by
  cases h with
  | @reference path h =>
    refine ⟨?_, List.cons_ne_nil _ _, ?_, read_reference h.1⟩
    · have htight := tight_of_ends (c := '/') (d := '>') (by decide)
        ("// <reference path=".toList ++ inQuotes path.toList ++ " /".toList) (by decide)
      simpa using htight
    · simp [inQuotes, h.2]
  | plain h => exact (lineSays_of_form h).1
  | terminated h => exact (lineSays_of_form h).2

/-! ## Texts -/

theorem pieces_append_of_not_mem {sep : Char} {ys p : List Char} {ps : List (List Char)}
    (h : sep ∉ cs) (hys : pieces sep ys = p :: ps) : pieces sep (cs ++ ys) = (cs ++ p) :: ps := by
  induction cs with
  | nil => exact hys
  | cons c cs ih =>
    rw [List.mem_cons, not_or] at h
    rw [List.cons_append, pieces_cons, ih h.2, pieceStep, if_neg (Ne.symm h.1)]
    rfl

theorem allBlank_of_mem_pieces {sep : Char} {b l : List Char} (hb : AllBlank b)
    (hl : l ∈ pieces sep b) : AllBlank l := fun c hc =>
  hb c (exists_mem_pieces_iff.1 ⟨l, hl, hc⟩).1

theorem exists_pieces_padded {b b' : List Char} (hb : AllBlank b) (hb' : AllBlank b')
    (h : '\n' ∉ cs) : ∃ above p p' below, pieces '\n' (b ++ cs ++ b') =
      above ++ (p ++ cs ++ p') :: below ∧ (∀ l ∈ above, AllBlank l) ∧ AllBlank p ∧ AllBlank p' ∧
        ∀ l ∈ below, AllBlank l := by
  induction b with
  | nil =>
    cases hp : pieces '\n' b' with
    | nil => exact absurd hp (pieces_ne_nil '\n' b')
    | cons p' below =>
      refine ⟨[], [], p', below, pieces_append_of_not_mem h hp, nofun, allBlank_nil, ?_, ?_⟩
      · exact allBlank_of_mem_pieces hb' (hp ▸ List.mem_cons_self)
      · exact fun l hl => allBlank_of_mem_pieces hb' (hp ▸ List.mem_cons_of_mem p' hl)
  | cons c b ih =>
    obtain ⟨hc, hb⟩ := List.forall_mem_cons.1 hb
    obtain ⟨above, p, p', below, heq, habove, hp, hp', hbelow⟩ := ih hb
    have hcons : ∀ {l}, AllBlank l → AllBlank (c :: l) := fun hl =>
      List.forall_mem_cons.2 ⟨hc, hl⟩
    rw [List.cons_append, List.cons_append, pieces_cons, heq]
    unfold pieceStep
    -- A blank in front is a line break, or it belongs to the first line.
    split
    · exact ⟨[] :: above, p, p', below, rfl, List.forall_mem_cons.2 ⟨allBlank_nil, habove⟩, hp, hp',
        hbelow⟩
    · cases above with
      | nil => exact ⟨[], c :: p, p', below, rfl, nofun, hcons hp, hp', hbelow⟩
      | cons q above =>
        obtain ⟨hq, habove⟩ := List.forall_mem_cons.1 habove
        exact ⟨(c :: q) :: above, p, p', below, rfl,
          List.forall_mem_cons.2 ⟨hcons hq, habove⟩, hp, hp', hbelow⟩

theorem read_padded {x : Statement} {b b' : List Char} (hb : AllBlank b) (hb' : AllBlank b')
    (h : LineSays x cs) :
    (Program.read (String.ofList (b ++ cs ++ b'))).errors = [] ∧
      (Program.read (String.ofList (b ++ cs ++ b'))).statements = [x.asRead] := by
  obtain ⟨above, p, p', below, hpieces, habove, hp, hp', hbelow⟩ :=
    exists_pieces_padded hb hb' h.line
  have hblank : ∀ l, AllBlank l → Line.ofText l = .comment := fun l hl =>
    ofText_eq_comment_iff.2 (.inl hl)
  have hline : Line.ofText (p ++ cs ++ p') = .statement x.asRead := by
    unfold Line.ofText
    rw [trim_padded hp hp' h.tight, if_neg (by simpa using h.ne_nil), h.reads]
  unfold Program.read
  rw [String.toList_ofList, ← List.length_eq_zero_iff, errors_ofLines, statements_ofLines, hpieces]
  constructor
  · refine List.countP_eq_zero.2 fun l hl => ?_
    rcases List.mem_append.1 hl with hl | hl
    · rw [hblank l (habove l hl)]
      exact Bool.false_ne_true
    · rcases List.mem_cons.1 hl with rfl | hl
      · rw [hline]
        exact Bool.false_ne_true
      · rw [hblank l (hbelow l hl)]
        exact Bool.false_ne_true
  · have hnothing : ∀ ls : List (List Char), (∀ l ∈ ls, AllBlank l) →
        ls.filterMap (fun l => (Line.ofText l).statement?) = [] := fun ls hls =>
      List.filterMap_eq_nil_iff.2 fun l hl => by rw [hblank l (hls l hl)]; rfl
    rw [List.filterMap_append, hnothing above habove, List.filterMap_cons, hline,
      hnothing below hbelow]
    rfl

/-- **Every documented line is read**, whatever blanks and line breaks stand around it, without
error and as the one statement that it is documented for. Only the names of what is no finite
number are read as numbers when they are values. -/
theorem grammar_exact {x : Statement} {b b' : List Char} (h : Documented x cs) (hb : AllBlank b)
    (hb' : AllBlank b') :
    (Program.read (String.ofList (b ++ cs ++ b'))).errors = [] ∧
      (Program.read (String.ofList (b ++ cs ++ b'))).statements = [x.asRead] ∧
      ((Program.read (String.ofList (b ++ cs ++ b'))).statements = [x] ↔ ¬x.BindsUnbounded) := by
  obtain ⟨herrors, hstatements⟩ := read_padded hb hb' h.lineSays
  refine ⟨herrors, hstatements, ?_⟩
  rw [hstatements, List.singleton_inj]
  exact asRead_eq_self_iff

theorem isType_singleton {c : Char} (hblank : isBlank c = false) (hc : c ≠ ';') : IsType [c] where
  tight := ⟨fun _ h => Option.some.inj h ▸ hblank, fun _ h => Option.some.inj h ▸ hblank⟩
  ne_nil := List.cons_ne_nil _ _
  single := fun h => hc (List.mem_singleton.1 h).symm
  line := fun h => by
    rw [← List.mem_singleton.1 h] at hblank
    cases hblank

/-- A module with a semicolon in its specifier and two members, between blank lines. -/
theorem grammar_exact_module :
    let x := Statement.declareModule "p;q" ["a", "b"]
    let line := "declare module \"p;q\" \x7b export const a: T; export const b: U; \x7d;".toList
    Documented x line ∧ AllBlank "\n\t".toList ∧ AllBlank " \r\n".toList ∧
      (Program.read (String.ofList ("\n\t".toList ++ line ++ " \r\n".toList))).errors = [] ∧
      (Program.read (String.ofList ("\n\t".toList ++ line ++ " \r\n".toList))).statements =
        [x] := by
  intro x line
  let members : List Typed := [⟨"a", ['T'], by decide, isType_singleton (by decide) (by decide)⟩,
    ⟨"b", ['U'], by decide, isType_singleton (by decide) (by decide)⟩]
  have htext : "declare module ".toList ++ moduleClause "p;q".toList members ++ [';'] = line := by
    decide
  have hline : Documented x line := by
    rw [← htext]
    exact .terminated (@Form.declareModule "p;q" ⟨by decide, by decide⟩ members)
  have hb : AllBlank "\n\t".toList := List.all_eq_true.1 (by decide)
  have hb' : AllBlank " \r\n".toList := List.all_eq_true.1 (by decide)
  have hread := grammar_exact hline hb hb'
  exact ⟨hline, hb, hb', hread.1, hread.2.1⟩

/-- The name `nan` is read as a number. -/
theorem nan_read_as_number :
    Documented (.binding false .constant "a" (.name "nan")) "const a = nan;".toList ∧
      (Program.read "const a = nan;").statements =
        [.binding false .constant "a" (.literal "nan")] ∧
      (Program.read "const a = nan;").statements ≠
        [.binding false .constant "a" (.name "nan")] := by
  refine ⟨.terminated (.binding false .constant (by decide) (.name (by decide) (by decide))),
    ?_, ?_⟩
  · decide +kernel
  · decide +kernel

end CompileCache.Mini
