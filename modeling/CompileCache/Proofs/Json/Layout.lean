import CompileCache.Proofs.Json.Digits

/-!
# Layout — printed values read back

* `Layout`: blanks that set the parts of a printed value apart; `Layout.chars`: a value in a layout.
  Values on one line and over several lines are in two of the layouts: `compactChars_eq`,
  `prettyChars_eq`.
* `Legible`: a value that a rigour accepts and whose text denotes it.
* **`Legible.readsBack`**: a legible value reads back, in whatever layout it is printed.
* **`parse_compact`**, `lenient?_compact`, **`lenient?_pretty`**.
-/

namespace CompileCache.Json

/-! ## Blanks -/

/-- Whether a character may stand between the parts of a value. -/
def isGap (c : Char) : Bool := c = ' ' || c = '\n' || c = '\t' || c = '\r'

/-- A text of blanks. -/
def Blank (ws : List Char) : Prop := ∀ c ∈ ws, isGap c = true

theorem Blank.nil : Blank [] := nofun

theorem skip_append {ws : List Char} (h : Blank ws) (cs : List Char) : skip (ws ++ cs) = skip cs :=
  List.dropWhile_append_of_pos h

theorem skip_cons {c : Char} (h : isGap c = false) (cs : List Char) : skip (c :: cs) = c :: cs :=
  List.dropWhile_cons_of_neg (by change ¬isGap c = true; rw [h]; decide)

theorem stops_append {ws cs : List Char} (h : Blank ws) (hs : Stops cs) : Stops (ws ++ cs) := by
  cases ws with
  | nil => exact hs
  | cons w ws =>
    have hgap : isGap w = true := h w List.mem_cons_self
    unfold isGap at hgap
    simp only [Bool.or_eq_true, decide_eq_true_eq] at hgap
    rcases hgap with ((rfl | rfl) | rfl) | rfl <;>
      exact stops_cons (by decide) (by decide) (by decide) (by decide) _

/-! ## Layouts -/

/-- Blanks that set the parts of a printed value apart. -/
structure Layout where
  /-- What stands ahead of an element or a member on a level, and ahead of what closes them. -/
  gap : Nat → List Char
  /-- What stands behind the colon of a member. -/
  colon : List Char
  blank_gap : ∀ level, Blank (gap level)
  blank_colon : Blank colon

namespace Layout

/-- Everything on one line. -/
def oneLine : Layout := ⟨fun _ => [], [], fun _ => .nil, .nil⟩

/-- Elements and members on lines of their own. -/
def lines : Layout where
  gap := newline
  colon := [' ']
  blank_gap level c hc := by
    rcases List.mem_cons.1 hc with rfl | hc
    · rfl
    · rw [(List.mem_replicate.1 hc).2]; rfl
  blank_colon c hc := by rw [List.mem_singleton.1 hc]; rfl

variable (l : Layout)

mutual

/-- The characters of a value that stands on a level. -/
def chars (level : Nat) : Json → List Char
  | .array [] => ['[', ']']
  | .array (j :: rest) => '[' :: (l.gap (level + 1) ++ items level (j :: rest))
  | .object [] => ['\x7b', '\x7d']
  | .object (m :: rest) => '\x7b' :: (l.gap (level + 1) ++ members level (m :: rest))
  | .null => ['n', 'u', 'l', 'l']
  | .bool true => ['t', 'r', 'u', 'e']
  | .bool false => ['f', 'a', 'l', 's', 'e']
  | .number n => n.chars
  | .text s => quoteChars s
  | .void => []

/-- The elements of an array on `level`, and the closing bracket. -/
def items (level : Nat) : List Json → List Char
  | [] => []
  | [j] => chars (level + 1) j ++ (l.gap level ++ [']'])
  | j :: rest => chars (level + 1) j ++ ',' :: (l.gap (level + 1) ++ items level rest)

/-- The members of an object on `level`, and the closing brace. -/
def members (level : Nat) : List (String × Json) → List Char
  | [] => []
  | [(k, j)] =>
    quoteChars k ++ ':' :: (l.colon ++ (chars (level + 1) j ++ (l.gap level ++ ['\x7d'])))
  | (k, j) :: rest =>
    quoteChars k ++ ':' :: (l.colon ++ (chars (level + 1) j ++
      ',' :: (l.gap (level + 1) ++ members level rest)))

end

theorem items_one (level : Nat) (j : Json) (rest : List Char) :
    l.items level [j] ++ rest = l.chars (level + 1) j ++ (l.gap level ++ ']' :: rest) := by
  simp [items]

theorem items_more (level : Nat) (j j' : Json) (js : List Json) (rest : List Char) :
    l.items level (j :: j' :: js) ++ rest = l.chars (level + 1) j ++
      ',' :: (l.gap (level + 1) ++ (l.items level (j' :: js) ++ rest)) := by
  simp [items]

theorem members_one (level : Nat) (k : String) (j : Json) (rest : List Char) :
    l.members level [(k, j)] ++ rest = quoteChars k ++
      ':' :: (l.colon ++ (l.chars (level + 1) j ++ (l.gap level ++ '\x7d' :: rest))) := by
  simp [members]

theorem members_more (level : Nat) (k : String) (j : Json) (m : String × Json)
    (ms : List (String × Json)) (rest : List Char) :
    l.members level ((k, j) :: m :: ms) ++ rest = quoteChars k ++
      ':' :: (l.colon ++ (l.chars (level + 1) j ++
        ',' :: (l.gap (level + 1) ++ (l.members level (m :: ms) ++ rest)))) := by
  simp [members]

end Layout

mutual

theorem compactChars_eq (level : Nat) : ∀ j : Json, j.compactChars = Layout.oneLine.chars level j
  | .array [] => rfl
  | .array (j :: rest) => by
    rw [compactChars, Layout.chars, compactItems_eq level (j :: rest) (List.cons_ne_nil j rest)]
    rfl
  | .object [] => rfl
  | .object (m :: rest) => by
    rw [compactChars, Layout.chars, compactMembers_eq level (m :: rest) (List.cons_ne_nil m rest)]
    rfl
  | .null | .bool true | .bool false | .number _ | .text _ | .void => rfl

theorem compactItems_eq (level : Nat) : ∀ items : List Json, items ≠ [] →
    compactItems items = Layout.oneLine.items level items
  | [], h => absurd rfl h
  | [j], _ => by
    rw [compactItems, Layout.items, compactChars_eq (level + 1) j]
    rfl
  | j :: j' :: rest, _ => by
    rw [compactItems, Layout.items, compactChars_eq (level + 1) j,
      compactItems_eq level (j' :: rest) (List.cons_ne_nil j' rest)]
    · rfl
    · simp
    · simp

theorem compactMembers_eq (level : Nat) : ∀ members : List (String × Json), members ≠ [] →
    compactMembers members = Layout.oneLine.members level members
  | [], h => absurd rfl h
  | [(k, j)], _ => by
    rw [compactMembers, Layout.members, compactChars_eq (level + 1) j]
    simp [Layout.oneLine]
  | (k, j) :: m' :: rest, _ => by
    rw [compactMembers, Layout.members, compactChars_eq (level + 1) j,
      compactMembers_eq level (m' :: rest) (List.cons_ne_nil m' rest)]
    · simp [Layout.oneLine]
    · simp
    · simp

end

mutual

theorem prettyChars_eq (level : Nat) : ∀ j : Json, j.prettyChars level = Layout.lines.chars level j
  | .array [] => rfl
  | .array (j :: rest) => by
    rw [prettyChars, Layout.chars, prettyItems_eq level (j :: rest) (List.cons_ne_nil j rest)]
    rfl
  | .object [] => rfl
  | .object (m :: rest) => by
    rw [prettyChars, Layout.chars, prettyMembers_eq level (m :: rest) (List.cons_ne_nil m rest)]
    rfl
  | .null | .bool true | .bool false | .number _ | .text _ | .void => rfl

theorem prettyItems_eq (level : Nat) : ∀ items : List Json, items ≠ [] →
    prettyItems level items = newline (level + 1) ++ Layout.lines.items level items
  | [], h => absurd rfl h
  | [j], _ => by
    rw [prettyItems, Layout.items, prettyChars_eq (level + 1) j]
    simp [Layout.lines]
  | j :: j' :: rest, _ => by
    rw [prettyItems, Layout.items, prettyChars_eq (level + 1) j,
      prettyItems_eq level (j' :: rest) (List.cons_ne_nil j' rest)]
    · simp [Layout.lines]
    · simp
    · simp

theorem prettyMembers_eq (level : Nat) : ∀ members : List (String × Json), members ≠ [] →
    prettyMembers level members = newline (level + 1) ++ Layout.lines.members level members
  | [], h => absurd rfl h
  | [(k, j)], _ => by
    rw [prettyMembers, Layout.members, prettyChars_eq (level + 1) j]
    simp [Layout.lines]
  | (k, j) :: m' :: rest, _ => by
    rw [prettyMembers, Layout.members, prettyChars_eq (level + 1) j,
      prettyMembers_eq level (m' :: rest) (List.cons_ne_nil m' rest)]
    · simp [Layout.lines]
    · simp
    · simp

end

/-! ## Legible values -/

/-- A value that a rigour accepts at a depth, and whose text denotes it. -/
inductive Legible (r : Rigour) : Nat → Json → Prop
  | null {depth : Nat} : Legible r depth .null
  | bool {depth : Nat} (b : Bool) : Legible r depth (.bool b)
  | natural {depth : Nat} (n : UInt64) : Legible r depth (.number (.natural n))
  | negative {depth : Nat} {n : UInt64} (h : n.toNat ≠ 0) (hn : n.toNat ≤ UInt64.size / 2) :
      Legible r depth (.number (.negative n))
  | text {depth : Nat} (s : String) : Legible r depth (.text s)
  | array {depth : Nat} {items : List Json} (hd : r.refuses depth = false)
      (hi : ∀ j ∈ items, Legible r (depth + 1) j) : Legible r depth (.array items)
  | object {depth : Nat} {members : List (String × Json)} (hd : r.refuses depth = false)
      (hk : r = .strict → ∀ m ∈ members.head?, m.1 ≠ embeddingKey)
      (hm : ∀ m ∈ members, Legible r (depth + 1) m.2) : Legible r depth (.object members)

/-- What is printed for a value on a level reads back as the value. -/
structure Layout.ReadsBack (l : Layout) (r : Rigour) (depth level : Nat) (j : Json) : Prop where
  /-- Neither a blank nor a closing bracket comes first. -/
  opens : ∃ c cs, l.chars level j = c :: cs ∧ isGap c = false ∧ c ≠ ']'
  reads : ∀ fuel rest, Stops rest → 2 * (l.chars level j ++ rest).length + 1 ≤ fuel →
    readValue r depth fuel (l.chars level j ++ rest) = .ok (j, rest)

variable {l : Layout} {r : Rigour} {depth level : Nat}

theorem readValue_append {ws : List Char} (h : Blank ws) (fuel : Nat) (cs : List Char) :
    readValue r depth (fuel + 1) (ws ++ cs) = readValue r depth (fuel + 1) cs := by
  rw [readValue, readValue, skip_append h]

theorem stops_closing (level : Nat) {c : Char} (hc : c = ']' ∨ c = '\x7d') (rest : List Char) :
    Stops (l.gap level ++ c :: rest) := by
  refine stops_append (l.blank_gap level) ?_
  rcases hc with rfl | rfl <;> exact stops_cons (by decide) (by decide) (by decide) (by decide) _

theorem stops_comma (rest : List Char) : Stops (',' :: rest) :=
  stops_cons (by decide) (by decide) (by decide) (by decide) rest

theorem exists_items {items : List Json} (hne : items ≠ [])
    (h : ∀ j ∈ items, l.ReadsBack r depth (level + 1) j) (rest : List Char) :
    ∃ c cs, l.items level items ++ rest = c :: cs ∧ isGap c = false ∧ c ≠ ']' := by
  match items with
  | [] => exact absurd rfl hne
  | [j] =>
    obtain ⟨c, cs, hcs, hgap, hc⟩ := (h j List.mem_cons_self).opens
    exact ⟨c, _, by rw [l.items_one, hcs]; rfl, hgap, hc⟩
  | j :: j' :: js =>
    obtain ⟨c, cs, hcs, hgap, hc⟩ := (h j List.mem_cons_self).opens
    exact ⟨c, _, by rw [l.items_more, hcs]; rfl, hgap, hc⟩

theorem readItems_items {items : List Json} (hne : items ≠ [])
    (h : ∀ j ∈ items, l.ReadsBack r depth (level + 1) j) (fuel : Nat) (rest : List Char)
    (hf : 2 * (l.items level items ++ rest).length + 2 ≤ fuel) :
    readItems r depth fuel (l.items level items ++ rest) = .ok (items, rest) := by
  induction items generalizing fuel with
  | nil => exact absurd rfl hne
  | cons j items ih =>
    obtain ⟨fuel, rfl⟩ : ∃ n, fuel = n + 1 := ⟨fuel - 1, by omega⟩
    have hj := h j List.mem_cons_self
    cases items with
    | nil =>
      rw [l.items_one] at hf ⊢
      rw [readItems, hj.reads fuel _ (stops_closing level (.inl rfl) rest) (by omega)]
      dsimp only
      rw [skip_append (l.blank_gap level)]
      rfl
    | cons j' js =>
      have h' : ∀ i ∈ j' :: js, l.ReadsBack r depth (level + 1) i :=
        fun i hi => h i (List.mem_cons_of_mem j hi)
      rw [l.items_more] at hf ⊢
      have ih' := ih (List.cons_ne_nil j' js) h' fuel (by
        simp only [List.length_append, List.length_cons] at hf ⊢
        omega)
      obtain ⟨c, cs, hcs, hgap, hc⟩ := exists_items (List.cons_ne_nil j' js) h' rest
      rw [readItems, hj.reads fuel _ (stops_comma _) (by omega)]
      dsimp only
      rw [skip_cons (by rfl)]
      dsimp only
      rw [if_neg (by decide), if_pos rfl, skip_append (l.blank_gap _), hcs, skip_cons hgap]
      dsimp only
      rw [if_neg hc, ← hcs, ih']
      rfl

theorem Layout.members_eq_cons (l : Layout) (level : Nat) {members : List (String × Json)}
    (hne : members ≠ []) (rest : List Char) :
    l.members level members ++ rest = '"' :: (l.members level members ++ rest).tail := by
  match members with
  | [] => exact absurd rfl hne
  | [(k, j)] => rw [l.members_one]; rfl
  | (k, j) :: m :: ms => rw [l.members_more]; rfl

theorem bind_readColon {α : Type} (cs : List Char) (f : Unit × List Char → Read α) :
    (readColon (':' :: cs)).bind f = f ((), cs) := rfl

/-- **The members of an object read back** if the value of each does. -/
theorem readMembers_members {members : List (String × Json)} (hne : members ≠ [])
    (h : ∀ m ∈ members, l.ReadsBack r depth (level + 1) m.2) (fuel : Nat) (rest : List Char)
    (hf : 2 * (l.members level members ++ rest).length ≤ fuel) :
    readMembers r depth fuel (l.members level members ++ rest).tail = .ok (some members, rest) := by
  induction members generalizing fuel with
  | nil => exact absurd rfl hne
  | cons m members ih =>
    obtain ⟨k, j⟩ := m
    have hlen := congrArg List.length (l.members_eq_cons level hne rest)
    rw [List.length_cons] at hlen
    obtain ⟨fuel, rfl⟩ : ∃ n, fuel = n + 2 := ⟨fuel - 2, by omega⟩
    have hj := h (k, j) List.mem_cons_self
    cases members with
    | nil =>
      rw [l.members_one] at hf ⊢
      rw [readMembers, readText_quoted]
      dsimp only
      rw [bind_readColon]
      rw [readValue_append l.blank_colon,
        hj.reads _ _ (stops_closing level (.inr rfl) rest) (by
          simp only [List.length_append, List.length_cons] at hf ⊢
          omega)]
      dsimp only
      rw [skip_append (l.blank_gap level)]
      simp [skip_cons, isGap]
    | cons m' ms =>
      have h' : ∀ m ∈ m' :: ms, l.ReadsBack r depth (level + 1) m.2 :=
        fun m hm => h m (List.mem_cons_of_mem _ hm)
      rw [l.members_more] at hf ⊢
      simp only [List.length_append, List.length_cons] at hf
      have ih' := ih (List.cons_ne_nil m' ms) h' (fuel + 1) (by
        simp only [List.length_append] at hf ⊢
        omega)
      rw [readMembers, readText_quoted]
      dsimp only
      rw [bind_readColon]
      rw [readValue_append l.blank_colon, hj.reads _ _ (stops_comma _) (by
        simp only [List.length_append, List.length_cons] at hf ⊢
        omega)]
      dsimp only
      rw [skip_cons (by rfl)]
      dsimp only
      rw [if_neg (by decide), if_pos rfl, skip_append (l.blank_gap _),
        l.members_eq_cons level (List.cons_ne_nil m' ms) rest, skip_cons (by rfl)]
      dsimp only
      rw [if_pos rfl, ih']
      simp [Except.map]

/-- An object does not start with the embedding key. -/
theorem afterEmbeddingKey?_quoted {k : String} (hk : r = .strict → k ≠ embeddingKey)
    (rest : List Char) : afterEmbeddingKey? r (quoteChars k ++ rest).tail = none := by
  unfold afterEmbeddingKey?
  rw [readText_quoted]
  cases r with
  | strict => simp [hk rfl]
  | lenient => rfl

theorem readPlain_toDigits {n : Nat} (hn : n < UInt64.size) {rest : List Char} (hr : Stops rest) :
    ∃ c cs, Nat.toDigits 10 n ++ rest = c :: cs ∧ c.isDigit = true ∧
      readPlain r c cs = integer false n rest := by
  obtain ⟨c, ds, hds, -⟩ := exists_toDigits n
  have hc : c.isDigit = true :=
    Nat.isDigit_of_mem_toDigits (by decide) (by decide) (hds ▸ List.mem_cons_self)
  refine ⟨c, ds ++ rest, by rw [hds]; rfl, hc, ?_⟩
  have hne : ∀ d : Char, d.isDigit = false → c ≠ d := by
    rintro d hd rfl
    rw [hc] at hd
    cases hd
  rw [readPlain, if_neg (hne _ (by decide)), if_neg (hne _ (by decide)), if_neg (hne _ (by decide)),
    if_neg (hne _ (by decide)), if_pos hc, ← List.cons_append, ← hds, readNumber_toDigits r _ hn hr]

theorem ne_of_opens {c : Char} (hc : c.isDigit = true ∨ c = '-') {d : Char}
    (hd : d.isDigit = false) (hm : d ≠ '-') : c ≠ d := by
  rintro rfl
  rcases hc with hc | hc
  · rw [hd] at hc; cases hc
  · exact hm hc

theorem isGap_of_opens {c : Char} (hc : c.isDigit = true ∨ c = '-') : isGap c = false := by
  simp [isGap, ne_of_opens hc (d := ' ') (by decide) (by decide),
    ne_of_opens hc (d := '\n') (by decide) (by decide),
    ne_of_opens hc (d := '\t') (by decide) (by decide),
    ne_of_opens hc (d := '\r') (by decide) (by decide)]

theorem readValue_plain {c : Char} {cs : List Char} (hc : c.isDigit = true ∨ c = '-') (fuel : Nat) :
    readValue r depth (fuel + 1) (c :: cs) = readPlain r c cs := by
  rw [readValue, skip_cons (isGap_of_opens hc)]
  dsimp only
  rw [if_neg (ne_of_opens hc (by decide) (by decide)),
    if_neg (ne_of_opens hc (by decide) (by decide)),
    if_neg (ne_of_opens hc (by decide) (by decide))]

theorem exists_succ_of_reads {cs : List Char} {fuel : Nat} (h : 2 * cs.length + 1 ≤ fuel) :
    ∃ n, fuel = n + 1 ∧ 2 * cs.length ≤ n := ⟨fuel - 1, by omega, by omega⟩

theorem Layout.readsBack_array {items : List Json} (hd : r.refuses depth = false)
    (h : ∀ j ∈ items, l.ReadsBack r (depth + 1) (level + 1) j) :
    l.ReadsBack r depth level (.array items) where
  opens := by cases items <;> exact ⟨'[', _, rfl, rfl, by decide⟩
  reads fuel rest hr hf := by
    obtain ⟨fuel, rfl, hf⟩ := exists_succ_of_reads hf
    cases items with
    | nil =>
      change readValue r depth (fuel + 1) ('[' :: ']' :: rest) = _
      rw [readValue, skip_cons (by rfl)]
      dsimp only
      rw [if_neg (by decide), if_pos rfl, hd, skip_cons (by rfl)]
      rfl
    | cons j js =>
      have hchars : l.chars level (.array (j :: js)) ++ rest =
          '[' :: (l.gap (level + 1) ++ (l.items level (j :: js) ++ rest)) := by simp [Layout.chars]
      rw [hchars] at hf ⊢
      obtain ⟨c, cs, hcs, hgap, hc⟩ := exists_items (List.cons_ne_nil j js) h rest
      have hitems := readItems_items (List.cons_ne_nil j js) h fuel rest (by
        simp only [List.length_append, List.length_cons] at hf ⊢
        omega)
      rw [readValue, skip_cons (by rfl)]
      dsimp only
      rw [if_neg (by decide), if_pos rfl, hd, skip_append (l.blank_gap _), hcs, skip_cons hgap]
      dsimp only
      rw [if_neg (by decide), if_neg hc, ← hcs, hitems]
      rfl

theorem Layout.readsBack_object {members : List (String × Json)} (hd : r.refuses depth = false)
    (hk : r = .strict → ∀ m ∈ members.head?, m.1 ≠ embeddingKey)
    (h : ∀ m ∈ members, l.ReadsBack r (depth + 1) (level + 1) m.2) :
    l.ReadsBack r depth level (.object members) where
  opens := by cases members <;> exact ⟨'\x7b', _, rfl, rfl, by decide⟩
  reads fuel rest hr hf := by
    obtain ⟨fuel, rfl, hf⟩ := exists_succ_of_reads hf
    cases members with
    | nil =>
      change readValue r depth (fuel + 1) ('\x7b' :: '\x7d' :: rest) = _
      rw [readValue, skip_cons (by rfl)]
      dsimp only
      rw [if_neg (by decide), if_neg (by decide), if_pos rfl, hd, skip_cons (by rfl)]
      rfl
    | cons m ms =>
      have hchars : l.chars level (.object (m :: ms)) ++ rest =
          '\x7b' :: (l.gap (level + 1) ++ (l.members level (m :: ms) ++ rest)) := by
        simp [Layout.chars]
      rw [hchars] at hf ⊢
      have hmembers := readMembers_members (List.cons_ne_nil m ms) h fuel rest
        (by
          simp only [List.length_append, List.length_cons] at hf ⊢
          omega)
      have hkey : afterEmbeddingKey? r (l.members level (m :: ms) ++ rest).tail = none := by
        obtain ⟨k, j⟩ := m
        have hne : r = .strict → k ≠ embeddingKey := fun hr => hk hr (k, j) rfl
        cases ms with
        | nil => rw [l.members_one]; exact afterEmbeddingKey?_quoted hne _
        | cons m' ms => rw [l.members_more]; exact afterEmbeddingKey?_quoted hne _
      rw [readValue, skip_cons (by rfl)]
      dsimp only
      rw [if_neg (by decide), if_neg (by decide), if_pos rfl, hd, skip_append (l.blank_gap _),
        l.members_eq_cons level (List.cons_ne_nil m ms) rest, skip_cons (by rfl)]
      dsimp only
      rw [if_neg (by decide), if_neg (by decide), if_pos rfl, hkey]
      dsimp only
      rw [hmembers]
      rfl

/-- **A legible value reads back, in whatever layout it is printed.** -/
theorem Legible.readsBack {j : Json} (h : Legible r depth j) (l : Layout) (level : Nat) :
    l.ReadsBack r depth level j := by
  induction h generalizing level with
  | null =>
    refine ⟨⟨'n', _, rfl, rfl, by decide⟩, fun fuel rest hr hf => ?_⟩
    obtain ⟨fuel, rfl, -⟩ := exists_succ_of_reads hf
    rfl
  | bool b =>
    refine ⟨by cases b <;> exact ⟨_, _, rfl, rfl, by decide⟩, fun fuel rest hr hf => ?_⟩
    obtain ⟨fuel, rfl, -⟩ := exists_succ_of_reads hf
    cases b <;> rfl
  | natural n =>
    have hread := fun rest (hr : Stops rest) => readPlain_toDigits (r := r) n.toNat_lt hr
    obtain ⟨c, cs, hcs, hc, -⟩ := hread [] nofun
    rw [List.append_nil] at hcs
    refine ⟨⟨c, cs, hcs, isGap_of_opens (.inl hc), ne_of_opens (.inl hc) (by decide) (by decide)⟩,
      fun fuel rest hr hf => ?_⟩
    obtain ⟨fuel, rfl, -⟩ := exists_succ_of_reads hf
    obtain ⟨c, cs, hcs, hc, hplain⟩ := hread rest hr
    change readValue _ _ (fuel + 1) (Nat.toDigits 10 n.toNat ++ rest) = _
    rw [hcs, readValue_plain (.inl hc), hplain]
    simp [integer]
  | @negative _ n hn hle =>
    refine ⟨⟨'-', _, rfl, rfl, by decide⟩, fun fuel rest hr hf => ?_⟩
    obtain ⟨fuel, rfl, -⟩ := exists_succ_of_reads hf
    change readValue _ _ (fuel + 1) ('-' :: (Nat.toDigits 10 n.toNat ++ rest)) = _
    rw [readValue_plain (.inr rfl)]
    change readNumber r true _ = _
    rw [readNumber_toDigits r true n.toNat_lt hr, integer, if_neg (by decide), if_pos ⟨hn, hle⟩]
    simp
  | text s =>
    refine ⟨⟨'"', _, rfl, rfl, by decide⟩, fun fuel rest hr hf => ?_⟩
    obtain ⟨fuel, rfl, -⟩ := exists_succ_of_reads hf
    change readValue _ _ (fuel + 1) ('"' :: (quoteChars s ++ rest).tail) = _
    rw [readValue, skip_cons (by rfl)]
    dsimp only
    rw [if_pos rfl, readText_quoted]
    simp [Except.map]
  | array hd hi ih => exact l.readsBack_array hd fun j hj => ih j hj (level + 1)
  | object hd hk hm ih => exact l.readsBack_object hd hk fun m hm => ih m hm (level + 1)

/-! ## Whole texts -/

/-- A legible value in a layout is a whole text that denotes it. -/
theorem Legible.ofChars_chars {j : Json} (h : Legible r 0 j) (l : Layout) :
    ofChars r (l.chars 0 j) = .ok j := by
  have hread := (h.readsBack l 0).reads (fuel (l.chars 0 j)) [] nofun (by
    rw [List.append_nil]
    unfold fuel
    omega)
  rw [List.append_nil] at hread
  unfold ofChars
  rw [hread]
  rfl

/-- **A value that is printed on one line reads back.** -/
theorem parse_compact {j : Json} (h : Legible .strict 0 j) : parse j.compact = .ok j := by
  unfold parse compact
  rw [String.toList_ofList, compactChars_eq 0 j, h.ofChars_chars]

theorem lenient?_compact {j : Json} (h : Legible .lenient 0 j) : lenient? j.compact = some j := by
  unfold lenient? compact
  rw [String.toList_ofList, compactChars_eq 0 j, h.ofChars_chars]
  rfl

/-- **A value that is printed over several lines reads back.** -/
theorem lenient?_pretty {j : Json} (h : Legible .lenient 0 j) : lenient? j.pretty = some j := by
  unfold lenient? pretty
  rw [String.toList_ofList, prettyChars_eq 0 j, h.ofChars_chars]
  rfl

end CompileCache.Json
