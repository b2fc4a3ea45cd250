import CompileCache.Mini.Program
import CompileCache.Proofs.Text.Trim

/-!
# Lines — what lines and texts are read as

* `isBlank_of_continuesName`, `tight_of_isName`: names have no blanks.
* `Value.Proper`, `Statement.Proper`: what a value and a statement are if they were read.
* `proper_of_readValue?`, `proper_of_readForm?`, **`proper_of_read`**: what a line says is proper.
* `Line.ofText`, `statements_ofLines`, `errors_ofLines`: a text says what its lines say.
* **`proper_of_mem_statements`**: the statements of a text are proper.
-/

namespace CompileCache.Mini

open Text

variable {cs : List Char}

/-! ## Names -/

theorem continuesName_of_startsName {c : Char} (h : startsName c = true) :
    continuesName c = true := by
  unfold startsName at h
  unfold continuesName Char.isAlphanum
  simp only [Bool.or_eq_true] at h ⊢
  exact h.imp_left (Or.imp_left .inl)

theorem toNat_of_continuesName {c : Char} (h : continuesName c = true) :
    c.toNat = 36 ∨ 48 ≤ c.toNat ∧ c.toNat ≤ 122 := by
  unfold continuesName at h
  simp only [Bool.or_eq_true, decide_eq_true_eq] at h
  rcases h with (h | rfl) | rfl
  · delta Char.isAlphanum Char.isAlpha Char.isUpper Char.isLower Char.isDigit at h
    simp only [Bool.or_eq_true, Bool.and_eq_true, decide_eq_true_eq, UInt32.le_iff_toNat_le,
      ge_iff_le] at h
    have : c.toNat = c.val.toNat := rfl
    have : 'A'.val.toNat = 65 := rfl
    have : 'Z'.val.toNat = 90 := rfl
    have : 'a'.val.toNat = 97 := rfl
    have : 'z'.val.toNat = 122 := rfl
    have : '0'.val.toNat = 48 := rfl
    have : '9'.val.toNat = 57 := rfl
    omega
  all_goals decide

theorem isBlank_of_continuesName {c : Char} (h : continuesName c = true) : isBlank c = false := by
  have hc := toNat_of_continuesName h
  simp only [isBlank, blankRanges, List.any_cons, List.any_nil, Bool.or_eq_false_iff,
    Bool.and_eq_false_iff, decide_eq_false_iff_not, and_true]
  omega

theorem isName_iff : isName cs = true ↔
    ∃ c t, cs = c :: t ∧ startsName c = true ∧ ∀ d ∈ t, continuesName d = true := by
  cases cs with
  | nil => simp [isName]
  | cons c t => simp [isName]

theorem continuesName_of_mem (h : isName cs = true) {c : Char} (hc : c ∈ cs) :
    continuesName c = true := by
  obtain ⟨d, t, rfl, hd, ht⟩ := isName_iff.1 h
  rcases List.mem_cons.1 hc with rfl | hc
  · exact continuesName_of_startsName hd
  · exact ht c hc

theorem not_mem_of_isName (h : isName cs = true) {c : Char} (hc : continuesName c = false) :
    c ∉ cs := fun hm => by
  rw [continuesName_of_mem h hm] at hc
  cases hc

theorem tight_of_isName (h : isName cs = true) : Tight cs where
  head := fun _ hc => isBlank_of_continuesName (continuesName_of_mem h (List.mem_of_mem_head? hc))
  last := fun _ hc =>
    isBlank_of_continuesName (continuesName_of_mem h (List.mem_of_mem_getLast? hc))

theorem ne_nil_of_isName (h : isName cs = true) : cs ≠ [] := by
  rintro rfl
  cases h

/-! ## What was read -/

/-- The text of a value. -/
def Value.text : Value → String
  | .literal text => text
  | .name n => n

/-- What a value is if it was read. -/
structure Value.Proper (v : Value) : Prop where
  tight : Tight v.text.toList
  line : '\n' ∉ v.text.toList
  reads : readValue? v.text.toList = some v

/-- What a statement that code can have is if it was read. -/
def Statement.Proper : Statement → Prop
  | .imports names specifier =>
    names ≠ [] ∧ (∀ n ∈ names, isName n.toList = true) ∧ '\n' ∉ specifier.toList
  | .exportAll specifier => '\n' ∉ specifier.toList
  | .binding _ _ name value => isName name.toList = true ∧ value.Proper
  | _ => True

theorem proper_of_readValue? {v : Value} (hcs : '\n' ∉ cs) (h : readValue? cs = some v) :
    v.Proper := by
  have htext : v.text.toList = trim cs := by
    unfold readValue? at h
    dsimp only at h
    split at h
    · cases h; exact String.toList_ofList
    · split at h
      · cases h; exact String.toList_ofList
      · cases h
  refine ⟨htext ▸ tight_trim cs, fun hm => hcs (mem_of_mem_trim (htext ▸ hm)), ?_⟩
  rw [htext]
  unfold readValue? at h ⊢
  rwa [(tight_trim cs).trim_eq]

theorem quoted?_eq_some {body rest : List Char} (h : quoted? cs = some (body, rest)) :
    ∃ q, trimStart cs = q :: (body ++ q :: rest) ∧ q ∉ body := by
  unfold quoted? at h
  split at h
  · cases h
  · next q t ht =>
    split at h
    · obtain ⟨rfl, hq⟩ := eq_of_cut? h
      exact ⟨q, ht, hq⟩
    · cases h

theorem mem_of_quotedAlone? {body : List Char} (h : quotedAlone? cs = some body) {c : Char}
    (hc : c ∈ body) : c ∈ cs := by
  unfold quotedAlone? at h
  split at h
  · next body' rest hq =>
    split at h
    · cases h
      obtain ⟨q, hcs, -⟩ := quoted?_eq_some hq
      refine (List.dropWhile_sublist isBlank).subset (?_ : c ∈ trimStart cs)
      rw [hcs]
      exact List.mem_cons_of_mem _ (List.mem_append_left _ hc)
    · cases h
  · cases h

theorem proper_of_readBound? {exported : Bool} {keyword : Keyword} {x : Statement}
    (hcs : '\n' ∉ cs) (h : readBound? exported keyword cs = some x) : x.Proper := by
  unfold readBound? at h
  obtain ⟨⟨name, value⟩, hcut, hbound⟩ := Option.bind_eq_some_iff.1 h
  obtain ⟨rfl, -⟩ := eq_of_cut? hcut
  dsimp only at hbound
  split at hbound
  · next hname =>
    obtain ⟨v, hv, hx⟩ := Option.bind_eq_some_iff.1 hbound
    cases hx
    refine ⟨by rwa [String.toList_ofList], proper_of_readValue? (fun hm => hcs ?_) hv⟩
    exact List.mem_append_right _ (List.mem_cons_of_mem _ hm)
  · cases hbound

theorem proper_of_readBinding? {exported : Bool} {x : Statement} (hcs : '\n' ∉ cs)
    (h : readBinding? exported cs = some x) : x.Proper := by
  unfold readBinding? at h
  split at h
  · next rest hr =>
    rw [after?_eq_some_iff] at hr
    exact proper_of_readBound? (fun hm => hcs (hr ▸ List.mem_append_right _ hm)) h
  · obtain ⟨rest, hr, hbound⟩ := Option.bind_eq_some_iff.1 h
    rw [after?_eq_some_iff] at hr
    exact proper_of_readBound? (fun hm => hcs (hr ▸ List.mem_append_right _ hm)) hbound

theorem proper_of_readImports? {x : Statement} (hcs : '\n' ∉ cs)
    (h : readImports? cs = some x) : x.Proper := by
  unfold readImports? at h
  obtain ⟨inside, hinside, hcut⟩ := Option.bind_eq_some_iff.1 h
  obtain ⟨⟨names, rest⟩, hnames, hall⟩ := Option.bind_eq_some_iff.1 hcut
  dsimp only at hall
  split at hall
  · cases hall
  · next hn =>
    rw [Bool.or_eq_true, not_or, Bool.not_eq_true, Bool.not_eq_true, Bool.not_eq_false',
      List.all_eq_true, List.isEmpty_eq_false_iff] at hn
    obtain ⟨specifier, hs, hquoted⟩ := Option.bind_eq_some_iff.1 hall
    obtain ⟨body, hb, hx⟩ := Option.bind_eq_some_iff.1 hquoted
    cases hx
    -- The specifier is part of the line.
    rw [after?_eq_some_iff] at hinside hs
    have hrest : ∀ c ∈ body, c ∈ cs := fun c hc => by
      refine mem_of_mem_trim (hinside ▸ List.mem_append_right _ ?_)
      rw [(eq_of_cut? hnames).1]
      refine List.mem_append_right _ (List.mem_cons_of_mem _ (mem_of_mem_trim ?_))
      rw [hs]
      exact List.mem_append_right _ (mem_of_quotedAlone? hb hc)
    refine ⟨by simpa using hn.1, ?_, ?_⟩
    · intro n hm
      obtain ⟨m, hm', rfl⟩ := List.mem_map.1 hm
      rw [String.toList_ofList]
      exact hn.2 m hm'
    · rw [String.toList_ofList]
      exact fun hm => hcs (hrest _ hm)

theorem proper_of_readExportAll? {x : Statement} (hcs : '\n' ∉ cs)
    (h : readExportAll? cs = some x) : x.Proper := by
  obtain ⟨specifier, hs, rfl⟩ := Option.map_eq_some_iff.1 h
  change '\n' ∉ (String.ofList specifier).toList
  rw [String.toList_ofList]
  exact fun hm => hcs (mem_of_quotedAlone? hs hm)

theorem proper_of_readModule? {x : Statement} (h : readModule? cs = some x) : x.Proper := by
  unfold readModule? at h
  obtain ⟨⟨specifier, rest⟩, -, hbody⟩ := Option.bind_eq_some_iff.1 h
  obtain ⟨body, -, hmembers⟩ := Option.bind_eq_some_iff.1 hbody
  obtain ⟨members, -, hx⟩ := Option.bind_eq_some_iff.1 hmembers
  cases hx
  trivial

theorem proper_of_readConst? {x : Statement} (h : readConst? cs = some x) : x.Proper := by
  unfold readConst? at h
  obtain ⟨⟨name, rest⟩, -, hname⟩ := Option.bind_eq_some_iff.1 h
  dsimp only at hname
  split at hname
  · cases hname
    trivial
  · cases hname

theorem exists_of_readForm? {l : List (String × (List Char → Option Statement))} {x : Statement}
    (h : readForm? cs l = some x) :
    ∃ form ∈ l, ∃ body, cs = form.1.toList ++ body ∧ form.2 body = some x := by
  induction l with
  | nil => cases h
  | cons form l ih =>
    unfold readForm? at h
    split at h
    · next body hb => exact ⟨form, List.mem_cons_self, body, after?_eq_some_iff.1 hb, h⟩
    · obtain ⟨form', hm, hx⟩ := ih h
      exact ⟨form', List.mem_cons_of_mem _ hm, hx⟩

theorem proper_of_readForm? {x : Statement} (hcs : '\n' ∉ cs)
    (h : readForm? cs forms = some x) : x.Proper := by
  obtain ⟨⟨lead, read⟩, hform, body, rfl, hx⟩ := exists_of_readForm? h
  rw [List.mem_append, not_or] at hcs
  unfold forms at hform
  simp only [List.mem_cons, List.not_mem_nil, or_false, Prod.mk.injEq] at hform
  rcases hform with ⟨-, rfl⟩ | ⟨-, rfl⟩ | ⟨-, rfl⟩ | ⟨-, rfl⟩ | ⟨-, rfl⟩ | ⟨-, rfl⟩
  · exact proper_of_readImports? hcs.2 hx
  · exact proper_of_readExportAll? hcs.2 hx
  · exact proper_of_readBinding? hcs.2 hx
  · exact proper_of_readModule? hx
  · exact proper_of_readConst? hx
  · exact proper_of_readBinding? hcs.2 hx

theorem mem_of_mem_unterminated {c : Char} (h : c ∈ unterminated cs) : c ∈ cs := by
  have hm := (List.rdropWhile_prefix isBlank _).subset h
  cases hb : before? [';'] cs with
  | none => rwa [hb] at hm
  | some body =>
    rw [hb] at hm
    rw [before?_eq_some_iff.1 hb]
    exact List.mem_append_left _ hm

/-- **What a line says is proper.** -/
theorem proper_of_read {x : Statement} (hcs : '\n' ∉ cs) (h : Line.read cs = .statement x) :
    x.Proper := by
  unfold Line.read at h
  split at h
  · cases h; trivial
  · split at h
    · split at h
      · cases h; trivial
      · cases h
    · split at h
      · cases h
      · split at h
        · next s hs =>
          cases h
          exact proper_of_readForm? (fun hm => hcs (mem_of_mem_unterminated hm)) hs
        · cases h

/-! ## Texts and their lines -/

/-- What a line of a text is read as. A blank line says as much as a comment. -/
def Line.ofText (line : List Char) : Line :=
  if (trim line).isEmpty then .comment else Line.read (trim line)

/-- The statement on a line. -/
def Line.statement? : Line → Option Statement
  | .statement x => some x
  | _ => none

/-- Whether a line is neither a statement nor a comment. -/
def Line.isInvalid : Line → Bool
  | .invalid => true
  | _ => false

theorem statements_ofLines (index offset : Nat) (lines : List (List Char)) :
    (Program.ofLines index offset lines).statements =
      lines.filterMap fun l => (Line.ofText l).statement? := by
  induction lines generalizing index offset with
  | nil => rfl
  | cons line lines ih =>
    have hrest := ih (index + 1) (offset + Program.size line + 1)
    unfold Program.ofLines
    rw [List.filterMap_cons, ← hrest]
    unfold Line.ofText
    split
    · rfl
    · cases Line.read (trim line) <;> rfl

theorem errors_ofLines (index offset : Nat) (lines : List (List Char)) :
    (Program.ofLines index offset lines).errors.length =
      lines.countP fun l => (Line.ofText l).isInvalid := by
  induction lines generalizing index offset with
  | nil => rfl
  | cons line lines ih =>
    have hrest := ih (index + 1) (offset + Program.size line + 1)
    unfold Program.ofLines
    rw [List.countP_cons, ← hrest]
    unfold Line.ofText
    split
    · rfl
    · cases Line.read (trim line) <;> rfl

theorem newline_not_mem_of_mem_pieces {cs line : List Char} (h : line ∈ pieces '\n' cs) :
    '\n' ∉ line := fun hm => (exists_mem_pieces_iff.1 ⟨line, h, hm⟩).2 rfl

/-- **The statements of a text are proper.** -/
theorem proper_of_mem_statements {content : String} {x : Statement}
    (h : x ∈ (Program.read content).statements) : x.Proper := by
  unfold Program.read at h
  rw [statements_ofLines] at h
  obtain ⟨line, hline, hx⟩ := List.mem_filterMap.1 h
  have hnot : '\n' ∉ trim line := fun hm => newline_not_mem_of_mem_pieces hline (mem_of_mem_trim hm)
  unfold Line.ofText at hx
  split at hx
  · cases hx
  · cases hread : Line.read (trim line) with
    | statement y =>
      rw [hread] at hx
      cases hx
      exact proper_of_read hnot hread
    | comment => rw [hread] at hx; cases hx
    | invalid => rw [hread] at hx; cases hx

end CompileCache.Mini
