import CompileCache.Options.Check

/-!
# Shapes — the values that the schema lets pass

* `Shape.Admits`: what a shape lets pass; **`Shape.check_eq_none_iff`**: its check finds no
  violation there, and one everywhere else.
* `Json.last?`: the value of a name in an object, the last one if there are several.
* `Options.Conforms`: members that are settings, with values of their shapes.
* **`Schema.read_text`**: the text of the schema describes the shapes of the settings.
* **`Schema.check_sorted_eq_none_iff`**: the schema lets pass the objects with such members.
-/

namespace CompileCache

/-! ## Shapes -/

/-- The values that a shape lets pass. -/
inductive Shape.Admits : Shape → Json → Prop
  | name {names : List String} {orNull : Bool} {s : String} (h : s ∈ names) :
      Admits (.name names orNull) (.text s)
  | null {names : List String} : Admits (.name names true) .null
  | flag (b : Bool) : Admits .flag (.bool b)
  | texts {l : List String} (h : ∀ s ∈ l, s ≠ "") : Admits .texts (.ofTexts l)
  | identifier {s : String} (h : Shape.fitsPattern s = true) : Admits .identifier (.text s)

theorem Shape.inClass_eq (c : Char) : inClass c = isIdentifierChar c := by
  have hupper : c.isUpper = (decide ('A' ≤ c) && decide (c ≤ 'Z')) := Bool.decide_and _ _
  change _ = (c.isUpper || c.isLower || c.isDigit || decide (c = '.') || decide (c = '_') ||
    decide (c = '-'))
  rw [hupper]
  rfl

/-- The pattern of the schema fits what the check of the architecture lets pass. -/
theorem Shape.fitsPattern_eq (s : String) : fitsPattern s = isIdentifier s := by
  unfold fitsPattern isIdentifier
  rw [funext inClass_eq]

theorem checkTexts_map_eq_none_iff {key : String} {i : Nat} {l : List String} :
    checkTexts key i (l.map .text) = none ↔ ∀ s ∈ l, s ≠ "" := by
  induction l generalizing i with
  | nil => simp [checkTexts]
  | cons s l ih =>
    by_cases hs : s = ""
    · simp [checkTexts, hs]
    · simp [checkTexts, hs, ih]

theorem exists_texts_of_checkTexts {key : String} {i : Nat} {items : List Json}
    (h : checkTexts key i items = none) : ∃ l : List String, items = l.map .text := by
  induction items generalizing i with
  | nil => exact ⟨[], rfl⟩
  | cons j items ih =>
    cases j with
    | text s =>
      simp only [checkTexts] at h
      split at h
      · cases h
      · obtain ⟨l, rfl⟩ := ih h
        exact ⟨s :: l, rfl⟩
    | _ => simp [checkTexts] at h

/-- **A check of a shape finds no violation in the values that it lets pass, and in no others.** -/
theorem Shape.check_eq_none_iff {key : String} {j : Json} {shape : Shape} :
    shape.check key j = none ↔ shape.Admits j := by
  constructor
  · intro h
    cases shape with
    | flag => cases j <;> simp [check] at h; exact .flag _
    | identifier =>
      cases j with
      | text s => exact .identifier (by simpa [check] using h)
      | _ => simp [check] at h
    | texts =>
      cases j with
      | array items =>
        obtain ⟨l, rfl⟩ := exists_texts_of_checkTexts h
        exact .texts (checkTexts_map_eq_none_iff.1 h)
      | _ => simp [check] at h
    | name names orNull =>
      cases j with
      | text s => exact .name (by simpa [check] using h)
      | null =>
        cases orNull with
        | true => exact .null
        | false => simp [check] at h
      | _ => simp [check] at h
  · intro h
    cases h with
    | name h => simpa [check] using h
    | null => rfl
    | flag => rfl
    | texts h => exact checkTexts_map_eq_none_iff.2 h
    | identifier h => simpa [check] using h

/-! ## Members in key order -/

namespace KeyMap

variable {β γ : Type}

/-- Of the entries with one key the last counts. -/
theorem get?_ofList (l : List (String × β)) (k : String) :
    (ofList l).get? k = lookup k l.reverse := by
  have h : ∀ r : List (String × β), (ofList r.reverse).get? k = lookup k r := by
    intro r
    induction r with
    | nil => rfl
    | cons e r ih =>
      rw [ofList, List.reverse_cons, List.foldl_append, List.foldl_cons, List.foldl_nil,
        get?_insert, lookup, ← ih]
      rfl
  simpa using h l.reverse

theorem lookup_map (f : β → γ) (k : String) (l : List (String × β)) :
    lookup k (l.map fun e => (e.1, f e.2)) = (lookup k l).map f := by
  induction l with
  | nil => rfl
  | cons e l ih =>
    rw [List.map_cons, lookup, lookup, ih]
    split <;> rfl

theorem isSome_lookup_iff {k : String} {l : List (String × β)} :
    (lookup k l).isSome = true ↔ k ∈ l.map (·.1) := by
  induction l with
  | nil => simp [lookup]
  | cons e l ih =>
    by_cases hk : k = e.1
    · simp [lookup, hk]
    · simp [lookup, hk, ih]

theorem mem_of_lookup {k : String} {v : β} {l : List (String × β)} (h : lookup k l = some v) :
    (k, v) ∈ l := by
  induction l with
  | nil => cases h
  | cons e l ih =>
    rw [lookup] at h
    split at h
    · next hk =>
      subst hk
      cases h
      exact List.mem_cons_self
    · exact List.mem_cons_of_mem _ (ih h)

end KeyMap

namespace Json

variable {members : List (String × Json)} {name : String}

/-- The value of a name in an object, the last one if there are several. -/
def last? (members : List (String × Json)) (name : String) : Option Json :=
  KeyMap.lookup name members.reverse

theorem exists_last?_iff : (∃ j, last? members name = some j) ↔ ∃ m ∈ members, m.1 = name := by
  rw [← Option.isSome_iff_exists, last?, KeyMap.isSome_lookup_iff, List.map_reverse,
    List.mem_reverse, List.mem_map]

theorem lookup_sorted (members : List (String × Json)) (name : String) :
    KeyMap.lookup name (KeyMap.ofList (sortedMembers members)).entries =
      (last? members name).map sorted := by
  change (KeyMap.ofList (sortedMembers members)).get? name = _
  rw [KeyMap.get?_ofList, sortedMembers_eq, ← List.map_reverse, KeyMap.lookup_map, last?]

theorem sorted_eq_text_iff {j : Json} {s : String} : j.sorted = .text s ↔ j = .text s := by
  cases j <;> simp [sorted]

theorem sorted_eq_ofTexts_iff {j : Json} {l : List String} :
    j.sorted = .ofTexts l ↔ j = .ofTexts l := by
  cases j with
  | array items =>
    rw [sorted, ofTexts, array.injEq, array.injEq, sortedItems_eq]
    induction items generalizing l with
    | nil => cases l <;> simp
    | cons j items ih => cases l <;> simp [sorted_eq_text_iff, ih]
  | _ => simp [sorted, ofTexts]

end Json

theorem Shape.Admits.sorted_eq {shape : Shape} {j : Json} (h : shape.Admits j) : j.sorted = j := by
  cases h with
  | texts => exact Json.sorted_eq_ofTexts_iff.2 rfl
  | name => exact Json.sorted_text _
  | identifier => exact Json.sorted_text _
  | null => simp [Json.sorted]
  | flag => simp [Json.sorted]

theorem Shape.admits_sorted_iff {shape : Shape} {j : Json} :
    shape.Admits j.sorted ↔ shape.Admits j := by
  constructor
  · intro h
    generalize hj : j.sorted = k at h
    have hback : j = k := by
      cases h with
      | texts => exact Json.sorted_eq_ofTexts_iff.1 hj
      | name => exact Json.sorted_eq_text_iff.1 hj
      | identifier => exact Json.sorted_eq_text_iff.1 hj
      | null => cases j <;> simp_all [Json.sorted]
      | flag => cases j <;> simp_all [Json.sorted]
    exact hback ▸ h
  · intro h
    rwa [h.sorted_eq]

/-! ## The schema -/

/-- Members that are settings; the values that count have the shapes of their settings. -/
structure Options.Conforms (members : List (String × Json)) : Prop where
  known : ∀ m ∈ members, m.1 ∈ Options.fieldNames
  fits : ∀ name shape, KeyMap.lookup name Schema.shapes = some shape →
    ∀ j, Json.last? members name = some j → shape.Admits j

theorem Schema.toList_text : text.toList = lines.flatMap fun line => line.toList ++ ['\n'] := by
  rw [text, String.toList_join, List.flatMap_map]
  simp only [String.toList_append]
  rfl

theorem Schema.read_eq_ok {s : String} {l : List (String × Shape)}
    (h : ((Json.ofChars .strict s.toList).toOption.bind fun j => (compile j.sorted).toOption) =
      some l) : read s = .ok l := by
  unfold read Json.parse
  cases hj : Json.ofChars .strict s.toList with
  | error f => rw [hj] at h; cases h
  | ok j =>
    rw [hj] at h
    change (compile j.sorted).toOption = some l at h
    dsimp only
    cases hc : compile j.sorted with
    | error reason => rw [hc] at h; cases h
    | ok l' => rw [hc] at h; cases h; rfl

/-- **The text of the schema describes the shapes of the settings.** -/
theorem Schema.read_text : read text = .ok shapes := by
  refine read_eq_ok ?_
  rw [toList_text]
  decide +kernel

/-- The schema has a shape for each of the settings, and for nothing else. -/
theorem Schema.exists_shape_iff {name : String} :
    (∃ shape, KeyMap.lookup name shapes = some shape) ↔ name ∈ Options.fieldNames := by
  have hperm : (shapes.map (·.1)).Perm Options.fieldNames := by decide
  rw [← Option.isSome_iff_exists, KeyMap.isSome_lookup_iff, hperm.mem_iff]

theorem Schema.checkMembers_eq_none_iff {shapes : List (String × Shape)} {whole : Json}
    {members : List (String × Json)} : checkMembers shapes whole members = none ↔ ∀ m ∈ members,
      ∃ shape, KeyMap.lookup m.1 shapes = some shape ∧ shape.Admits m.2 := by
  induction members with
  | nil => simp [checkMembers]
  | cons m members ih =>
    rw [checkMembers, List.forall_mem_cons]
    cases hs : KeyMap.lookup m.1 shapes with
    | none => simp
    | some shape =>
      have hadmits : shape.check m.1 m.2 = none ↔ shape.Admits m.2 := Shape.check_eq_none_iff
      simp only [Option.some.injEq, exists_eq_left', ← hadmits, ← ih]
      cases shape.check m.1 m.2 <;> simp

/-- **The schema lets pass the objects whose members conform**, put in key order. -/
theorem Schema.check_sorted_eq_none_iff {j : Json} :
    check j.sorted = none ↔ ∃ members, j = .object members ∧ Options.Conforms members := by
  cases j with
  | object members =>
    rw [Json.sorted, check, checkBy, checkMembers_eq_none_iff]
    have hentries : ∀ m, m ∈ (KeyMap.ofList (Json.sortedMembers members)).entries ↔
        ∃ j, Json.last? members m.1 = some j ∧ j.sorted = m.2 := fun m => by
      rw [KeyMap.mem_entries_iff, KeyMap.get?, Json.lookup_sorted, Option.map_eq_some_iff]
    simp only [hentries, Json.object.injEq, exists_eq_left']
    constructor
    · intro h
      refine ⟨fun m hm => ?_, fun name shape hs j hj => ?_⟩
      · obtain ⟨j, hj⟩ := Json.exists_last?_iff.2 ⟨m, hm, rfl⟩
        obtain ⟨shape, hs, -⟩ := h (m.1, j.sorted) ⟨j, hj, rfl⟩
        exact exists_shape_iff.1 ⟨shape, hs⟩
      · obtain ⟨shape', hs', hadmits⟩ := h (name, j.sorted) ⟨j, hj, rfl⟩
        cases hs.symm.trans hs'
        exact Shape.admits_sorted_iff.1 hadmits
    · rintro ⟨hknown, hfits⟩ ⟨name, k⟩ ⟨j, hj, rfl⟩
      obtain ⟨m, hm, rfl⟩ := Json.exists_last?_iff.1 ⟨j, hj⟩
      obtain ⟨shape, hs⟩ := exists_shape_iff.2 (hknown m hm)
      exact ⟨shape, hs, Shape.admits_sorted_iff.2 (hfits _ _ hs _ hj)⟩
  | _ => simp [Json.sorted, check, checkBy]

end CompileCache
