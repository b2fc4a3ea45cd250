import CompileCache.Proofs.Mini.Constants
import CompileCache.Proofs.Mini.Lines

/-!
# Written — reading back what was written

* `quotedAlone?_inQuotes`: a text in quotation marks is read back unless it has one itself.
* `parts_joined`, `readImports?_importClause`, `readBound?_bindingClause`: names, imports and
  bindings.
* **`read_eq_readForm?`**, `read_terminated`, `read_unterminated`: a line is read by its form, with
  or without a semicolon at its end.
* `Statement.Quotable`, **`ofText_emitted`**: the line for a statement in a module says what the
  statement does, unless its specifier has a double quotation mark.
* `statements_terminated`, `errors_terminated`: texts whose lines end in line breaks.
-/

namespace CompileCache.Mini

open Text

variable {cs : List Char}

/-! ## Quoted texts -/

/-- A text in double quotation marks. -/
def inQuotes (cs : List Char) : List Char := '"' :: (cs ++ ['"'])

theorem tight_inQuotes (cs : List Char) : Tight (inQuotes cs) :=
  tight_of_ends (by decide) cs (by decide)

theorem inQuotes_ne_nil (cs : List Char) : inQuotes cs ≠ [] := List.cons_ne_nil _ _

/-- **A text in quotation marks is read back** unless it has one itself. -/
theorem quotedAlone?_inQuotes {b : List Char} (hb : AllBlank b) (cs : List Char) :
    quotedAlone? (b ++ inQuotes cs) = if '"' ∈ cs then none else some cs := by
  have hq : quoted? (b ++ inQuotes cs) = cut? '"' (cs ++ ['"']) := by
    unfold quoted? inQuotes
    rw [trimStart_append_of_allBlank hb,
      trimStart_cons_of_not_isBlank (by decide : isBlank '"' = false)]
    rfl
  unfold quotedAlone?
  rw [hq]
  by_cases h : '"' ∈ cs
  · obtain ⟨x, y, hxy⟩ := cut?_append_of_mem h
    rw [hxy, if_pos h]
    -- The second mark is left over.
    have hm : '"' ∈ trim (y ++ ['"']) :=
      mem_trim (List.mem_append_right _ List.mem_cons_self) (by decide)
    refine if_neg fun hnil => ?_
    rw [List.isEmpty_iff.1 hnil] at hm
    cases hm
  · rw [cut?_append h, if_neg h]
    rfl

/-! ## Lists of names -/

theorem parts_append_sep (sep : Char) (xs ys : List Char) :
    parts sep (xs ++ sep :: ys) = parts sep xs ++ parts sep ys := by
  unfold parts
  rw [pieces_append_sep, List.map_append, List.filter_append]

theorem parts_padded {sep : Char} {b b' : List Char} (hb : AllBlank b) (hb' : AllBlank b')
    (hsep : isBlank sep = false) (hnot : sep ∉ cs) (h : Tight cs) (hne : cs ≠ []) :
    parts sep (b ++ cs ++ b') = [cs] := by
  have hnot' : sep ∉ b ++ cs ++ b' := by
    simp only [List.mem_append, not_or]
    refine ⟨⟨fun hm => ?_, hnot⟩, fun hm => ?_⟩
    · rw [hb _ hm] at hsep
      cases hsep
    · rw [hb' _ hm] at hsep
      cases hsep
  unfold parts
  rw [pieces_of_not_mem hnot', List.map_singleton, trim_padded hb hb' h]
  exact List.filter_cons_of_pos (by simpa using hne)

theorem parts_name {b b' : List Char} (hb : AllBlank b) (hb' : AllBlank b')
    (h : isName cs = true) : parts ',' (b ++ cs ++ b') = [cs] :=
  parts_padded hb hb' (by decide) (not_mem_of_isName h (by decide)) (tight_of_isName h)
    (ne_nil_of_isName h)

/-- Names with commas and blanks between them, and blanks around them. -/
def joined (names : List String) : List Char := ' ' :: ((", ".intercalate names).toList ++ [' '])

theorem joined_singleton (n : String) : joined [n] = [' '] ++ n.toList ++ [' '] := by
  simp [joined]

theorem joined_cons_cons (n m : String) (names : List String) :
    joined (n :: m :: names) = ([' '] ++ n.toList ++ []) ++ ',' :: joined (m :: names) := by
  unfold joined
  rw [String.toList_intercalate, String.toList_intercalate, List.map_cons, List.map_cons,
    List.intercalate_cons_cons]
  simp

theorem parts_joined {names : List String} (hne : names ≠ [])
    (h : ∀ n ∈ names, isName n.toList = true) :
    parts ',' (joined names) = names.map String.toList := by
  induction names with
  | nil => exact absurd rfl hne
  | cons n names ih =>
    have hn := h n List.mem_cons_self
    cases names with
    | nil =>
      rw [joined_singleton]
      exact parts_name allBlank_space allBlank_space hn
    | cons m names =>
      rw [joined_cons_cons, parts_append_sep, parts_name allBlank_space allBlank_nil hn,
        ih (List.cons_ne_nil m names) fun k hk => h k (List.mem_cons_of_mem n hk)]
      rfl

theorem not_mem_joined {names : List String} (h : ∀ n ∈ names, isName n.toList = true) {c : Char}
    (hc : continuesName c = false) (hcomma : c ≠ ',') (hblank : c ≠ ' ') : c ∉ joined names := by
  induction names with
  | nil => simp [joined, hblank]
  | cons n names ih =>
    have hn := not_mem_of_isName (h n List.mem_cons_self) hc
    cases names with
    | nil => simp [joined_singleton, hblank, hn]
    | cons m names =>
      have htail := ih fun k hk => h k (List.mem_cons_of_mem n hk)
      simp [joined_cons_cons, hblank, hcomma, hn, htail]

/-! ## Statements -/

/-- What stands behind the first word of an import. -/
def importClause (names : List String) (specifier : List Char) : List Char :=
  '\x7b' :: (joined names ++ ['\x7d', ' ']) ++ ("from ".toList ++ inQuotes specifier)

theorem tight_fromClause (specifier : List Char) :
    Tight ("from ".toList ++ inQuotes specifier) :=
  (tight_inQuotes specifier).append (fun _ h => Option.some.inj h ▸ by decide)
    (inQuotes_ne_nil specifier)

theorem tight_importClause (names : List String) (specifier : List Char) :
    Tight (importClause names specifier) :=
  (tight_fromClause specifier).append (fun _ h => Option.some.inj h ▸ by decide)
    (List.append_ne_nil_of_right_ne_nil _ (inQuotes_ne_nil specifier))

theorem readImports?_importClause {names : List String} (hne : names ≠ [])
    (h : ∀ n ∈ names, isName n.toList = true) (specifier : String) :
    readImports? (importClause names specifier.toList) =
      if '"' ∈ specifier.toList then none else some (.imports names specifier) := by
  have hlead : after? ['\x7b'] (importClause names specifier.toList) =
      some (joined names ++ '\x7d' :: (' ' :: ("from ".toList ++ inQuotes specifier.toList))) := by
    unfold importClause
    rw [after?_eq_some_iff]
    simp
  have hcut := cut?_append (not_mem_joined h (by decide : continuesName '\x7d' = false) (by decide)
    (by decide)) (' ' :: ("from ".toList ++ inQuotes specifier.toList))
  have hnames : ((parts ',' (joined names)).isEmpty || !(parts ',' (joined names)).all isName) =
      false := by
    rw [parts_joined hne h]
    simpa using ⟨hne, h⟩
  have hmap : (parts ',' (joined names)).map String.ofList = names := by
    rw [parts_joined hne h, List.map_map]
    exact List.map_id'' (fun n => String.ofList_toList) names
  have htrim : trim (' ' :: ("from ".toList ++ inQuotes specifier.toList)) =
      "from ".toList ++ inQuotes specifier.toList := by
    simpa using trim_padded allBlank_space allBlank_nil (tight_fromClause specifier.toList)
  have hfrom : after? "from".toList ("from ".toList ++ inQuotes specifier.toList) =
      some ([' '] ++ inQuotes specifier.toList) := after?_eq_some_iff.2 rfl
  have hquoted := quotedAlone?_inQuotes allBlank_space specifier.toList
  unfold readImports?
  rw [(tight_importClause names _).trim_eq, hlead]
  simp only [Option.bind_eq_bind, Option.bind_some, hcut, hnames, Bool.false_eq_true, if_false,
    htrim, hfrom, hquoted, hmap]
  split
  · rfl
  · exact congrArg (fun t => some (Statement.imports names t)) String.ofList_toList

theorem readExportAll?_inQuotes (specifier : String) :
    readExportAll? (inQuotes specifier.toList) =
      if '"' ∈ specifier.toList then none else some (.exportAll specifier) := by
  unfold readExportAll?
  rw [show inQuotes specifier.toList = [] ++ inQuotes specifier.toList from rfl,
    quotedAlone?_inQuotes allBlank_nil]
  split
  · rfl
  · exact congrArg (fun t => some (Statement.exportAll t)) String.ofList_toList

/-- What stands behind the first words of a binding. -/
def bindingClause (name : String) (v : Value) : List Char :=
  name.toList ++ " = ".toList ++ v.text.toList

theorem Value.Proper.ne_nil {v : Value} (h : v.Proper) : v.text.toList ≠ [] := fun hnil => by
  have hreads := h.reads
  rw [hnil] at hreads
  revert hreads
  exact nofun

theorem tight_bindingClause {name : String} {v : Value} (hname : isName name.toList = true)
    (hv : v.Proper) : Tight (bindingClause name v) := by
  refine hv.tight.append (fun c hc => ?_) hv.ne_nil
  rw [List.head?_append_of_ne_nil _ (ne_nil_of_isName hname)] at hc
  exact (tight_of_isName hname).head c hc

theorem readBound?_bindingClause {name : String} {v : Value} (exported : Bool) (keyword : Keyword)
    (hname : isName name.toList = true) (hv : v.Proper) :
    readBound? exported keyword (bindingClause name v) =
      some (.binding exported keyword name v) := by
  have hcut : cut? '=' (bindingClause name v) =
      some (name.toList ++ [' '], ' ' :: v.text.toList) := by
    have hnot : '=' ∉ name.toList ++ [' '] := by
      simpa using not_mem_of_isName hname (by decide)
    simpa [bindingClause] using cut?_append hnot (' ' :: v.text.toList)
  have htrim : trim (name.toList ++ [' ']) = name.toList := by
    simpa using trim_padded allBlank_nil allBlank_space (tight_of_isName hname)
  have hvalue : readValue? (' ' :: v.text.toList) = some v := by
    have hreads := hv.reads
    have hblank := trim_padded allBlank_space allBlank_nil hv.tight
    unfold readValue? at hreads ⊢
    rw [hv.tight.trim_eq] at hreads
    rw [List.append_nil] at hblank
    rwa [show trim (' ' :: v.text.toList) = v.text.toList from hblank]
  unfold readBound?
  simp only [Option.bind_eq_bind, hcut, Option.bind_some, htrim, hname, if_true, hvalue,
    String.ofList_toList]
  rfl

/-- The words that a binding in a module begins with. -/
def bindingLead (exported : Bool) (keyword : Keyword) : List Char :=
  (if exported then "export ".toList else []) ++
    match keyword with
    | .constant => "const ".toList
    | .variable => "let ".toList

theorem readForm?_bindingLead (exported : Bool) (keyword : Keyword) (body : List Char) :
    readForm? (bindingLead exported keyword ++ body) forms =
      readBound? exported keyword body := by
  cases exported <;> cases keyword <;> rfl

/-! ## Whole lines -/

/-- **A line is read by its form** unless it begins as comments, references and crashes do. -/
theorem read_eq_readForm? (hc : ∀ c ∈ cs.head?, c ≠ '#' ∧ c ≠ '/') :
    Line.read cs = match readForm? (unterminated cs) forms with
      | some x => .statement x
      | none => .invalid := by
  have hcrash : cs ≠ crashText.toList := fun h => by
    subst h
    exact (hc '#' rfl).1 rfl
  have hafter : ∀ lead, after? ('/' :: lead) cs = none := fun lead => by
    cases cs with
    | nil => rfl
    | cons c t => exact if_neg (Ne.symm (hc c rfl).2)
  have hreference : after? "///".toList cs = none := hafter _
  have hcomment : after? "//".toList cs = none := hafter _
  unfold Line.read
  rw [if_neg hcrash, hreference, hcomment]
  rfl

theorem read_terminated (h : Tight cs) (hc : ∀ c ∈ cs.head?, c ≠ '#' ∧ c ≠ '/') :
    Line.read (cs ++ [';']) = match readForm? cs forms with
      | some x => .statement x
      | none => .invalid := by
  have hun : unterminated (cs ++ [';']) = cs := by
    unfold unterminated
    rw [before?_eq_some_iff.2 rfl]
    exact trimEnd_eq_self h.last
  rw [read_eq_readForm?, hun]
  intro c hm
  cases cs with
  | nil => cases hm; decide
  | cons d t => exact hc c hm

theorem read_unterminated (h : Tight cs) (hlast : cs.getLast? ≠ some ';')
    (hc : ∀ c ∈ cs.head?, c ≠ '#' ∧ c ≠ '/') :
    Line.read cs = match readForm? cs forms with
      | some x => .statement x
      | none => .invalid := by
  have hun : unterminated cs = cs := by
    have hnone : before? [';'] cs = none := by
      refine Option.eq_none_iff_forall_ne_some.2 fun rest hrest => hlast ?_
      rw [before?_eq_some_iff.1 hrest, List.getLast?_concat]
    unfold unterminated
    rw [hnone]
    exact trimEnd_eq_self h.last
  rw [read_eq_readForm? hc, hun]

theorem ofText_terminated {lead body : List Char} (hlead : ∃ c t, lead = c :: t ∧ c.isAlpha = true)
    (h : Tight body) (hne : body ≠ []) :
    Line.ofText (lead ++ body ++ [';']) = match readForm? (lead ++ body) forms with
      | some x => .statement x
      | none => .invalid := by
  obtain ⟨c, t, rfl, hc⟩ := hlead
  have hblank : isBlank c = false :=
    isBlank_of_continuesName (continuesName_of_startsName (by simp [startsName, hc]))
  have hbody : Tight (c :: t ++ body) := h.append (fun _ hd => Option.some.inj hd ▸ hblank) hne
  have hline : Tight (c :: t ++ body ++ [';']) := tight_of_ends hblank (t ++ body) (by decide)
  unfold Line.ofText
  rw [hline.trim_eq, if_neg (by simp)]
  refine read_terminated hbody fun d hd => ?_
  cases hd
  constructor <;> rintro rfl <;> cases hc

/-- The specifier of a statement, if it has one, has no double quotation mark. -/
def Statement.Quotable (x : Statement) : Prop := ∀ specifier ∈ x.specifier?, '"' ∉ specifier.toList

instance (x : Statement) : Decidable x.Quotable :=
  match h : x.specifier? with
  | none => .isTrue fun _ hs => by rw [h] at hs; cases hs
  | some specifier =>
    decidable_of_iff ('"' ∉ specifier.toList)
      ⟨fun hq _ hs => Option.some.inj (h.symm.trans hs) ▸ hq, fun hq => hq specifier h⟩

theorem quotable_iff {x : Statement} {specifier : String} (h : x.specifier? = some specifier) :
    x.Quotable ↔ '"' ∉ specifier.toList :=
  ⟨fun hq => hq specifier h, fun hq _ hs => Option.some.inj (h.symm.trans hs) ▸ hq⟩

theorem if_quotable {x : Statement} (specifier : String) (h : x.specifier? = some specifier) :
    (if '"' ∈ specifier.toList then none else some x) = if x.Quotable then some x else none := by
  by_cases hq : '"' ∈ specifier.toList
  · rw [if_pos hq, if_neg fun hx => (quotable_iff h).1 hx hq]
  · rw [if_neg hq, if_pos ((quotable_iff h).2 hq)]

/-- The words that a line begins with and the clause behind them say what a statement does, if its
specifier can be quoted. -/
structure Says (x : Statement) (lead clause : List Char) : Prop where
  letter : ∃ c t, lead = c :: t ∧ c.isAlpha = true
  tight : Tight clause
  ne_nil : clause ≠ []
  line : '\n' ∉ lead ++ clause
  reads : readForm? (lead ++ clause) forms = if x.Quotable then some x else none

theorem says_imports {names : List String} {specifier : String}
    (hx : (Statement.imports names specifier).Proper) :
    Says (.imports names specifier) "import ".toList (importClause names specifier.toList) where
  letter := ⟨'i', "mport ".toList, rfl, by decide⟩
  tight := tight_importClause names _
  ne_nil := List.cons_ne_nil _ _
  line := by
    have hjoined : '\n' ∉ joined names :=
      not_mem_joined hx.2.1 (by decide) (by decide) (by decide)
    simp [importClause, inQuotes, hjoined, hx.2.2]
  reads := by
    rw [← if_quotable specifier rfl, ← readImports?_importClause hx.1 hx.2.1]
    rfl

theorem says_exportAll {specifier : String} (hx : (Statement.exportAll specifier).Proper) :
    Says (.exportAll specifier) "export * from ".toList (inQuotes specifier.toList) where
  letter := ⟨'e', "xport * from ".toList, rfl, by decide⟩
  tight := tight_inQuotes _
  ne_nil := inQuotes_ne_nil _
  line := by
    have hspecifier : '\n' ∉ specifier.toList := hx
    simp [inQuotes, hspecifier]
  reads := by
    rw [← if_quotable specifier rfl, ← readExportAll?_inQuotes]
    rfl

theorem says_binding {exported : Bool} {keyword : Keyword} {name : String} {v : Value}
    (hx : (Statement.binding exported keyword name v).Proper) :
    Says (.binding exported keyword name v) (bindingLead exported keyword)
      (bindingClause name v) where
  letter := by
    cases exported <;> cases keyword <;> exact ⟨_, _, rfl, by decide⟩
  tight := tight_bindingClause hx.1 hx.2
  ne_nil := List.append_ne_nil_of_right_ne_nil _ hx.2.ne_nil
  line := by
    have hlead : '\n' ∉ bindingLead exported keyword := by
      cases exported <;> cases keyword <;> decide
    have hname : '\n' ∉ name.toList := not_mem_of_isName hx.1 (by decide)
    simp [bindingClause, hlead, hname, hx.2.line]
  reads := by
    rw [readForm?_bindingLead, readBound?_bindingClause _ _ hx.1 hx.2]
    exact (if_pos fun _ hs => nomatch hs).symm

theorem exists_says {strict : Bool} {x : Statement} {line : String} (hx : x.Proper)
    (h : emitStatement ⟨false, true, strict⟩ Value.text x = some line) :
    ∃ lead clause, line.toList = lead ++ clause ++ [';'] ∧ Says x lead clause := by
  cases x with
  | imports names specifier =>
    refine ⟨_, _, ?_, says_imports hx⟩
    cases h
    simp [importClause, joined, inQuotes]
  | exportAll specifier =>
    refine ⟨_, _, ?_, says_exportAll hx⟩
    cases h
    simp [inQuotes]
  | binding exported keyword name v =>
    refine ⟨_, _, ?_, says_binding hx⟩
    rw [emitStatement_binding] at h
    cases h
    cases exported <;> cases keyword <;>
      simp [Style.bindingHead, bindingLead, bindingClause, Style.word]
  | _ => cases h

/-- **The line for a statement in a module** says what the statement does. If the specifier has a
double quotation mark, it is no statement. -/
theorem ofText_emitted {strict : Bool} {x : Statement} {line : String} (hx : x.Proper)
    (h : emitStatement ⟨false, true, strict⟩ Value.text x = some line) :
    '\n' ∉ line.toList ∧
      Line.ofText line.toList = if x.Quotable then .statement x else .invalid := by
  obtain ⟨lead, clause, hline, hsays⟩ := exists_says hx h
  rw [hline]
  refine ⟨fun hm => ?_, ?_⟩
  · rcases List.mem_append.1 hm with hm | hm
    · exact hsays.line hm
    · exact absurd hm (by decide)
  · rw [ofText_terminated hsays.letter hsays.tight hsays.ne_nil, hsays.reads]
    by_cases hq : x.Quotable
    · rw [if_pos hq, if_pos hq]
    · rw [if_neg hq, if_neg hq]

/-! ## Texts -/

theorem pieces_terminated {lines : List String} (h : ∀ l ∈ lines, '\n' ∉ l.toList) :
    pieces '\n' (terminated lines).toList = lines.map String.toList ++ [[]] := by
  unfold terminated
  rw [String.toList_join]
  induction lines with
  | nil => rfl
  | cons line lines ih =>
    have hhead := pieces_of_not_mem (h line List.mem_cons_self)
    have htail := ih fun l hl => h l (List.mem_cons_of_mem line hl)
    have hsplit : ((line :: lines).map (· ++ "\n")).flatMap String.toList =
        line.toList ++ '\n' :: (lines.map (· ++ "\n")).flatMap String.toList := by
      simp
    rw [hsplit, pieces_append_sep, hhead, htail]
    rfl

theorem statements_terminated {lines : List String} (h : ∀ l ∈ lines, '\n' ∉ l.toList) :
    (Program.read (terminated lines)).statements =
      lines.filterMap fun l => (Line.ofText l.toList).statement? := by
  unfold Program.read
  rw [statements_ofLines, pieces_terminated h, List.filterMap_append, List.filterMap_map]
  exact List.append_nil _

theorem errors_terminated {lines : List String} (h : ∀ l ∈ lines, '\n' ∉ l.toList) :
    (Program.read (terminated lines)).errors.length =
      lines.countP fun l => (Line.ofText l.toList).isInvalid := by
  unfold Program.read
  rw [errors_ofLines, pieces_terminated h, List.countP_append, List.countP_map]
  rfl

/-- The lines of a module for some statements. -/
def moduleLines (strict : Bool) (l : List Statement) : List String :=
  l.filterMap (emitStatement ⟨false, true, strict⟩ Value.text)

theorem newline_not_mem_moduleLines {strict : Bool} {l : List Statement}
    (hl : ∀ x ∈ l, x.Proper) : ∀ line ∈ moduleLines strict l, '\n' ∉ line.toList := by
  intro line hline
  obtain ⟨x, hx, hemit⟩ := List.mem_filterMap.1 hline
  exact (ofText_emitted (hl x hx) hemit).1

variable {l : List Statement}

/-- **The statements that are read back** are those whose specifiers can be quoted. -/
theorem statements_moduleLines (strict : Bool) (hl : ∀ x ∈ l, x.Proper)
    (hemit : ∀ x ∈ l, (emitStatement ⟨false, true, strict⟩ Value.text x).isSome = true) :
    (Program.read (terminated (moduleLines strict l))).statements =
      l.filter fun x => x.Quotable := by
  rw [statements_terminated (newline_not_mem_moduleLines hl), moduleLines, List.filterMap_filterMap,
    ← List.filterMap_eq_filter]
  refine List.filterMap_congr fun x hx => ?_
  obtain ⟨line, hline⟩ := Option.isSome_iff_exists.1 (hemit x hx)
  rw [hline, Option.bind_some, (ofText_emitted (hl x hx) hline).2]
  by_cases hq : x.Quotable <;> simp [hq, Line.statement?, Option.guard]

/-- **Each of the other statements gives an error.** -/
theorem errors_moduleLines (strict : Bool) (hl : ∀ x ∈ l, x.Proper)
    (hemit : ∀ x ∈ l, (emitStatement ⟨false, true, strict⟩ Value.text x).isSome = true) :
    (Program.read (terminated (moduleLines strict l))).errors.length =
      l.countP fun x => ¬x.Quotable := by
  rw [errors_terminated (newline_not_mem_moduleLines hl), moduleLines, List.countP_filterMap]
  refine List.countP_congr fun x hx => ?_
  obtain ⟨line, hline⟩ := Option.isSome_iff_exists.1 (hemit x hx)
  rw [hline, Option.map_some, (ofText_emitted (hl x hx) hline).2]
  by_cases hq : x.Quotable <;> simp [hq, Line.isInvalid]

end CompileCache.Mini
