/-!
# KeyMap — finite maps from text keys, in ascending key order

* `KeyMap`: an association list whose keys ascend strictly in code point order.
* `get?_insert`, `get?_erase`, `get?_mapValues`, `get?_filter`: lookups through every operation.
* **`ext_get?`**: two maps with the same lookups are equal.
* `KeySet`: a finite set of texts, as a map to the unit type; `mem_ofList`, **`KeySet.ext_mem`**.
-/

namespace CompileCache

universe u v

/-- A finite map from texts; the entries are listed with strictly ascending keys. -/
structure KeyMap (β : Type u) where
  /-- The entries in ascending key order. -/
  entries : List (String × β)
  sorted : entries.Pairwise fun a b => a.1 < b.1

namespace KeyMap

variable {β : Type u} {γ : Type v}

/-! ## Sorted association lists -/

/-- The value at a key of a list of entries. -/
def lookup (k : String) : List (String × β) → Option β
  | [] => none
  | (k', v) :: rest => if k = k' then some v else lookup k rest

/-- Puts an entry at its place, in the stead of an entry with the same key. -/
def insertSorted (k : String) (v : β) : List (String × β) → List (String × β)
  | [] => [(k, v)]
  | (k', v') :: rest =>
    if k < k' then (k, v) :: (k', v') :: rest
    else if k = k' then (k, v) :: rest
    else (k', v') :: insertSorted k v rest

theorem mem_insertSorted {k : String} {v : β} {a : String × β} {l : List (String × β)}
    (h : a ∈ insertSorted k v l) : a = (k, v) ∨ a ∈ l := by
  induction l with
  | nil => simpa [insertSorted] using h
  | cons e rest ih =>
    obtain ⟨k', v'⟩ := e
    rw [insertSorted] at h
    split at h
    · simpa using h
    · split at h
      · rcases List.mem_cons.1 h with rfl | h
        · exact .inl rfl
        · exact .inr (List.mem_cons_of_mem _ h)
      · rcases List.mem_cons.1 h with rfl | h
        · exact .inr List.mem_cons_self
        · exact (ih h).imp_right (List.mem_cons_of_mem _)

theorem eq_of_not_lt {a b : String} (h : ¬a < b) (h' : ¬b < a) : a = b :=
  String.le_antisymm (String.not_lt.1 h') (String.not_lt.1 h)

theorem lt_of_not_lt_of_ne {a b : String} (h : ¬a < b) (hne : a ≠ b) : b < a := by
  by_cases h' : b < a
  · exact h'
  · exact absurd (eq_of_not_lt h h') hne

theorem ne_of_lt {a b : String} (h : a < b) : a ≠ b := fun e => String.lt_irrefl b (e ▸ h)

theorem pairwise_insertSorted (k : String) (v : β) {l : List (String × β)}
    (h : l.Pairwise fun a b => a.1 < b.1) :
    (insertSorted k v l).Pairwise fun a b => a.1 < b.1 := by
  induction l with
  | nil => simp [insertSorted]
  | cons e rest ih =>
    obtain ⟨k', v'⟩ := e
    have hr := List.pairwise_cons.1 h
    rw [insertSorted]
    split
    · next hlt =>
      refine List.pairwise_cons.2 ⟨fun a ha => ?_, h⟩
      rcases List.mem_cons.1 ha with rfl | ha
      · exact hlt
      · exact String.lt_trans hlt (hr.1 a ha)
    · next hlt =>
      split
      · next heq =>
        subst heq
        exact List.pairwise_cons.2 ⟨fun a ha => hr.1 a ha, hr.2⟩
      · next hne =>
        refine List.pairwise_cons.2 ⟨fun a ha => ?_, ih hr.2⟩
        rcases mem_insertSorted ha with rfl | ha
        · exact lt_of_not_lt_of_ne hlt hne
        · exact hr.1 a ha

theorem lookup_insertSorted (k k' : String) (v : β) (l : List (String × β)) :
    lookup k' (insertSorted k v l) = if k' = k then some v else lookup k' l := by
  induction l with
  | nil => simp [insertSorted, lookup]
  | cons e rest ih =>
    obtain ⟨k₁, v₁⟩ := e
    rw [insertSorted]
    split
    · simp [lookup]
    · split
      · next heq =>
        subst heq
        by_cases h : k' = k <;> simp [lookup, h]
      · next hne =>
        by_cases h : k' = k
        · subst h; simp [lookup, ih, hne]
        · simp [lookup, ih, h]

theorem lookup_eq_some_iff {k : String} {v : β} {l : List (String × β)}
    (h : l.Pairwise fun a b => a.1 < b.1) : lookup k l = some v ↔ (k, v) ∈ l := by
  induction l with
  | nil => simp [lookup]
  | cons e rest ih =>
    obtain ⟨k', v'⟩ := e
    have hr := List.pairwise_cons.1 h
    by_cases hk : k = k'
    · subst hk
      simp only [lookup, if_true, List.mem_cons, Prod.mk.injEq, true_and, Option.some.injEq]
      refine ⟨fun h => .inl h.symm, ?_⟩
      rintro (h | h)
      · exact h.symm
      · exact absurd (hr.1 _ h) (String.lt_irrefl k)
    · simp [lookup, hk, ih hr.2]

theorem lookup_filter (p : String × β → Bool) (k : String) {l : List (String × β)}
    (h : l.Pairwise fun a b => a.1 < b.1) :
    lookup k (l.filter p) = (lookup k l).filter fun v => p (k, v) := by
  refine Option.ext fun v => ?_
  rw [lookup_eq_some_iff (h.filter p), List.mem_filter, ← lookup_eq_some_iff h,
    Option.filter_eq_some_iff]

/-! ## The map -/

/-- The map without entries. -/
def empty : KeyMap β := ⟨[], List.Pairwise.nil⟩

instance : Inhabited (KeyMap β) := ⟨empty⟩

instance : EmptyCollection (KeyMap β) := ⟨empty⟩

/-- The value at a key, if there is one. -/
def get? (m : KeyMap β) (k : String) : Option β := lookup k m.entries

/-- Whether a key has a value. -/
def contains (m : KeyMap β) (k : String) : Bool := (m.get? k).isSome

/-- Sets the value at a key. -/
def insert (m : KeyMap β) (k : String) (v : β) : KeyMap β :=
  ⟨insertSorted k v m.entries, pairwise_insertSorted k v m.sorted⟩

/-- Keeps the entries that a test accepts. -/
def filter (m : KeyMap β) (p : String → β → Bool) : KeyMap β :=
  ⟨m.entries.filter fun e => p e.1 e.2, m.sorted.filter _⟩

/-- Removes a key. -/
def erase (m : KeyMap β) (k : String) : KeyMap β := m.filter fun k' _ => k' != k

/-- Changes every value, keeping the keys. -/
def mapValues (f : String → β → γ) (m : KeyMap β) : KeyMap γ :=
  ⟨m.entries.map fun e => (e.1, f e.1 e.2), m.sorted.map _ fun _ _ h => h⟩

/-- The keys in ascending order. -/
def keys (m : KeyMap β) : List String := m.entries.map (·.1)

/-- The values in ascending order of their keys. -/
def values (m : KeyMap β) : List β := m.entries.map (·.2)

/-- How many keys have a value. -/
def size (m : KeyMap β) : Nat := m.entries.length

/-- Whether no key has a value. -/
def isEmpty (m : KeyMap β) : Bool := m.entries.isEmpty

/-- The map with the given entries; of two entries with one key the later counts. -/
def ofList (l : List (String × β)) : KeyMap β := l.foldl (fun m e => m.insert e.1 e.2) empty

@[simp] theorem get?_empty (k : String) : (empty : KeyMap β).get? k = none := rfl

@[simp] theorem entries_empty : (empty : KeyMap β).entries = [] := rfl

theorem get?_insert (m : KeyMap β) (k k' : String) (v : β) :
    (m.insert k v).get? k' = if k' = k then some v else m.get? k' :=
  lookup_insertSorted k k' v m.entries

@[simp] theorem get?_insert_self (m : KeyMap β) (k : String) (v : β) :
    (m.insert k v).get? k = some v := by simp [get?_insert]

theorem get?_insert_of_ne (m : KeyMap β) {k k' : String} (v : β) (h : k' ≠ k) :
    (m.insert k v).get? k' = m.get? k' := by simp [get?_insert, h]

theorem get?_filter (m : KeyMap β) (p : String → β → Bool) (k : String) :
    (m.filter p).get? k = (m.get? k).filter (p k) :=
  lookup_filter (fun e => p e.1 e.2) k m.sorted

theorem get?_erase (m : KeyMap β) (k k' : String) :
    (m.erase k).get? k' = if k' = k then none else m.get? k' := by
  rw [erase, get?_filter]
  by_cases h : k' = k
  · subst h; cases m.get? k' <;> simp
  · cases m.get? k' <;> simp [h]

theorem mem_entries_iff (m : KeyMap β) (k : String) (v : β) :
    (k, v) ∈ m.entries ↔ m.get? k = some v := (lookup_eq_some_iff m.sorted).symm

theorem get?_mapValues (f : String → β → γ) (m : KeyMap β) (k : String) :
    (m.mapValues f).get? k = (m.get? k).map (f k) := by
  refine Option.ext fun w => ?_
  rw [← mem_entries_iff, Option.map_eq_some_iff]
  constructor
  · intro h
    obtain ⟨⟨k', v⟩, hm, he⟩ := List.mem_map.1 h
    obtain ⟨rfl, rfl⟩ := Prod.mk.inj he
    exact ⟨v, (mem_entries_iff m k' v).1 hm, rfl⟩
  · rintro ⟨v, hv, rfl⟩
    exact List.mem_map.2 ⟨(k, v), (mem_entries_iff m k v).2 hv, rfl⟩

theorem mem_keys_iff (m : KeyMap β) (k : String) : k ∈ m.keys ↔ (m.get? k).isSome := by
  rw [keys, List.mem_map, Option.isSome_iff_exists]
  constructor
  · rintro ⟨⟨k', v⟩, hm, rfl⟩
    exact ⟨v, (mem_entries_iff m k' v).1 hm⟩
  · rintro ⟨v, hv⟩
    exact ⟨(k, v), (mem_entries_iff m k v).2 hv, rfl⟩

theorem pairwise_keys (m : KeyMap β) : m.keys.Pairwise (· < ·) :=
  List.pairwise_map.2 m.sorted

theorem eq_of_entries_eq : {m n : KeyMap β} → m.entries = n.entries → m = n
  | ⟨_, _⟩, ⟨_, _⟩, rfl => rfl

theorem entries_ext {l l' : List (String × β)} (h : l.Pairwise fun a b => a.1 < b.1)
    (h' : l'.Pairwise fun a b => a.1 < b.1) (hm : ∀ e, e ∈ l ↔ e ∈ l') : l = l' := by
  induction l generalizing l' with
  | nil =>
    cases l' with
    | nil => rfl
    | cons e _ => exact absurd ((hm e).2 List.mem_cons_self) List.not_mem_nil
  | cons a l ih =>
    cases l' with
    | nil => exact absurd ((hm a).1 List.mem_cons_self) List.not_mem_nil
    | cons b l' =>
      have ha := List.pairwise_cons.1 h
      have hb := List.pairwise_cons.1 h'
      have hab : a = b := by
        rcases List.mem_cons.1 ((hm a).1 List.mem_cons_self) with e | h1
        · exact e
        rcases List.mem_cons.1 ((hm b).2 List.mem_cons_self) with e | h2
        · exact e.symm
        exact absurd (String.lt_trans (hb.1 a h1) (ha.1 b h2)) (String.lt_irrefl _)
      subst hab
      refine congrArg (a :: ·) (ih ha.2 hb.2 fun e => ⟨fun he => ?_, fun he => ?_⟩)
      · rcases List.mem_cons.1 ((hm e).1 (List.mem_cons_of_mem _ he)) with rfl | h
        · exact absurd (ha.1 _ he) (String.lt_irrefl _)
        · exact h
      · rcases List.mem_cons.1 ((hm e).2 (List.mem_cons_of_mem _ he)) with rfl | h
        · exact absurd (hb.1 _ he) (String.lt_irrefl _)
        · exact h

/-- **Maps with the same lookups are equal.** -/
theorem ext_get? {m n : KeyMap β} (h : ∀ k, m.get? k = n.get? k) : m = n :=
  eq_of_entries_eq <| entries_ext m.sorted n.sorted fun ⟨k, v⟩ => by
    rw [mem_entries_iff, mem_entries_iff, h k]

instance [DecidableEq β] : DecidableEq (KeyMap β) := fun m n =>
  if h : m.entries = n.entries then isTrue (eq_of_entries_eq h)
  else isFalse fun e => h (e ▸ rfl)

instance : Functor KeyMap where
  map f m := m.mapValues fun _ => f

end KeyMap

/-! ## Sets of texts -/

/-- A finite set of texts, listed in ascending order. -/
abbrev KeySet := KeyMap Unit

namespace KeySet

/-- The members in ascending order. -/
def toList (s : KeySet) : List String := KeyMap.keys s

/-- The set with one more member. -/
def add (s : KeySet) (k : String) : KeySet := KeyMap.insert s k ()

/-- The set with the given members. -/
def ofList (l : List String) : KeySet := l.foldl add KeyMap.empty

/-- The set with the members of a list added. -/
def addAll (s : KeySet) (l : List String) : KeySet := l.foldl add s

/-- The members of either set. -/
def union (s t : KeySet) : KeySet := s.addAll t.toList

instance : Membership String KeySet := ⟨fun s k => KeyMap.contains s k = true⟩

instance (k : String) (s : KeySet) : Decidable (k ∈ s) :=
  inferInstanceAs (Decidable (KeyMap.contains s k = true))

theorem mem_iff_contains {k : String} {s : KeySet} : k ∈ s ↔ KeyMap.contains s k = true := .rfl

theorem mem_toList {k : String} {s : KeySet} : k ∈ s.toList ↔ k ∈ s := KeyMap.mem_keys_iff s k

@[simp] theorem not_mem_empty (k : String) : ¬k ∈ (KeyMap.empty : KeySet) := by
  simp [mem_iff_contains, KeyMap.contains]

@[simp] theorem mem_add {k k' : String} {s : KeySet} : k' ∈ s.add k ↔ k' = k ∨ k' ∈ s := by
  simp only [mem_iff_contains, KeyMap.contains, add, KeyMap.get?_insert]
  by_cases h : k' = k <;> simp [h]

@[simp] theorem mem_addAll {k : String} {l : List String} {s : KeySet} :
    k ∈ s.addAll l ↔ k ∈ s ∨ k ∈ l := by
  induction l generalizing s with
  | nil => simp [addAll]
  | cons a l ih =>
    have := ih (s := s.add a)
    simp only [addAll, List.foldl_cons] at this ⊢
    rw [this, mem_add, List.mem_cons]
    constructor
    · rintro ((h | h) | h) <;> simp [h]
    · rintro (h | h | h) <;> simp [h]

@[simp] theorem mem_ofList {k : String} {l : List String} : k ∈ ofList l ↔ k ∈ l := by
  have := mem_addAll (k := k) (l := l) (s := KeyMap.empty)
  simpa [addAll, ofList] using this

@[simp] theorem mem_union {k : String} {s t : KeySet} : k ∈ s.union t ↔ k ∈ s ∨ k ∈ t := by
  simp [union, mem_toList]

theorem mem_erase {k k' : String} {s : KeySet} : k' ∈ KeyMap.erase s k ↔ k' ≠ k ∧ k' ∈ s := by
  simp only [mem_iff_contains, KeyMap.contains, KeyMap.get?_erase]
  by_cases h : k' = k <;> simp [h]

/-- **Sets with the same members are equal.** -/
theorem ext_mem {s t : KeySet} (h : ∀ k, k ∈ s ↔ k ∈ t) : s = t :=
  KeyMap.ext_get? fun k => by
    have := h k
    simp only [mem_iff_contains, KeyMap.contains] at this
    cases hs : s.get? k <;> cases ht : t.get? k <;> simp_all

end KeySet

end CompileCache
