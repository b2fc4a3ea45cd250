import CompileCache.Engine.References
import CompileCache.Staleness

/-!
# Hashes — what stamps say about a source

* `Source.hashAt`: the hash that a path is observed with; a path without content has the empty one.
* `KeySet.hashes`, `References.hashes`: paths with their hashes; `Dependencies.hashes`: the hashes
  of a record.
* **`hashes_stamped`**: a record holds the hashes of the source, whatever the tracker held before.
* `Dependencies.staleness`, **`classify_fst`**: how stale a record is, without any tracker.
* `Source.hashAt_inj`: under a faithful digest, equal hashes mean equal contents.
* `References.Covers`, **`Dependencies.staleness_eq_fresh`**: when a record is fresh.
-/

namespace CompileCache

variable (d : Digest)

/-- The hash that a path is observed with. -/
def Source.hashAt (s : Source) (path : String) : String := ((s.content path).map d.ofText).getD ""

/-- The members of a set with the hashes of what they hold. -/
def KeySet.hashes (s : Source) (paths : KeySet) : KeyMap String :=
  KeyMap.mapValues (fun path _ => s.hashAt d path) paths

/-- The hashes of a record, in its three parts. -/
structure Hashes where
  refFiles : KeyMap String
  modules : KeyMap String
  typings : Option (KeyMap String)
deriving DecidableEq

/-- The hashes of stamped paths. -/
def stampedHashes (m : KeyMap Stamp) : KeyMap String := m.mapValues fun _ stamp => stamp.hash

/-- The paths and hashes of a record. -/
def Dependencies.hashes (deps : Dependencies) : Hashes :=
  ⟨stampedHashes deps.refFiles, stampedHashes deps.modules, deps.typings.map stampedHashes⟩

/-- The paths that a compiler looked at, with the hashes of what they hold. -/
def References.hashes (s : Source) (r : References) : Hashes :=
  ⟨r.refFiles.hashes d s, r.modules.hashes d s, r.typings.map (KeySet.hashes d s)⟩

/-! ## Contents behind hashes -/

variable {d}

theorem Source.hashAt_of_content {s : Source} {path content : String}
    (h : s.content path = some content) : s.hashAt d path = d.ofText content := by
  rw [hashAt, h]; rfl

theorem Source.hashAt_of_none {s : Source} {path : String} (h : s.content path = none) :
    s.hashAt d path = "" := by
  rw [hashAt, h]; rfl

/-- Some bytes are a content of a source. -/
def Source.HasContent (s : Source) (b : ByteArray) : Prop :=
  ∃ path content, s.content path = some content ∧ b = content.toUTF8

/-- A digest tells the contents of two sources apart. -/
def Digest.Tells (d : Digest) (s t : Source) : Prop :=
  d.FaithfulOn fun b => s.HasContent b ∨ t.HasContent b

/-- **Equal hashes mean equal contents**, absence included, if the digest tells them apart. -/
theorem Source.hashAt_inj {s t : Source} (hd : d.Tells s t) {path : String}
    (h : s.hashAt d path = t.hashAt d path) : s.Agree t path := by
  unfold Agree
  cases hs : s.content path with
  | none =>
    cases ht : t.content path with
    | none => rfl
    | some b =>
      rw [hashAt_of_none hs, hashAt_of_content ht] at h
      exact absurd h.symm (hd.nonempty (.inr ⟨path, b, ht, rfl⟩))
  | some a =>
    cases ht : t.content path with
    | none =>
      rw [hashAt_of_content hs, hashAt_of_none ht] at h
      exact absurd h (hd.nonempty (.inl ⟨path, a, hs, rfl⟩))
    | some b =>
      rw [hashAt_of_content hs, hashAt_of_content ht] at h
      rw [Digest.ofText_inj (hd.injective (.inl ⟨path, a, hs, rfl⟩) (.inr ⟨path, b, ht, rfl⟩)) h]

theorem KeySet.get?_hashes (s : Source) (paths : KeySet) (k : String) :
    (paths.hashes d s).get? k = if k ∈ paths then some (s.hashAt d k) else none := by
  rw [hashes, KeyMap.get?_mapValues]
  by_cases hk : k ∈ paths
  · obtain ⟨u, hu⟩ := Option.isSome_iff_exists.1 (KeySet.mem_iff_contains.1 hk)
    rw [if_pos hk, hu]; rfl
  · have hn : KeyMap.get? paths k = none := by
      simpa [KeySet.mem_iff_contains, KeyMap.contains] using hk
    rw [if_neg hk, hn]; rfl

/-! ## What observing stamps -/

theorem Tracker.hash_observe (t : Tracker) (s : Source) (path : String) :
    (t.observe d s path).1.hash = s.hashAt d path := by
  unfold observe
  split
  · next h => rw [Source.hashAt_of_none h]; rfl
  · next content h => rw [stamp_fst, hash_next, Source.hashAt_of_content h]

theorem Tracker.hashes_observeEach (t : Tracker) (s : Source) (l : List String) :
    (t.observeEach d s l).1.map (fun e => (e.1, e.2.hash)) = l.map fun p => (p, s.hashAt d p) := by
  induction l generalizing t with
  | nil => rfl
  | cons p l ih =>
    simp only [observeEach, List.map_cons, hash_observe]
    rw [ih]

theorem KeyMap.mapValues_insert {β γ : Type} (f : β → γ) (m : KeyMap β) (k : String) (v : β) :
    (m.insert k v).mapValues (fun _ => f) = (m.mapValues fun _ => f).insert k (f v) := by
  apply KeyMap.ext_get?
  intro k'
  rw [get?_mapValues, get?_insert, get?_insert, get?_mapValues]
  split <;> rfl

theorem KeyMap.mapValues_foldl_insert {β γ : Type} (f : β → γ) (l : List (String × β))
    (m : KeyMap β) :
    (l.foldl (fun m e => m.insert e.1 e.2) m).mapValues (fun _ => f) =
      (l.map fun e => (e.1, f e.2)).foldl (fun m e => m.insert e.1 e.2)
        (m.mapValues fun _ => f) := by
  induction l generalizing m with
  | nil => rfl
  | cons e l ih => rw [List.foldl_cons, ih, mapValues_insert]; rfl

theorem KeyMap.mapValues_ofList {β γ : Type} (f : β → γ) (l : List (String × β)) :
    (ofList l).mapValues (fun _ => f) = ofList (l.map fun e => (e.1, f e.2)) :=
  mapValues_foldl_insert f l empty

theorem KeyMap.get?_foldl_insert {β : Type} (f : String → β) (l : List String) (m : KeyMap β)
    (k : String) :
    ((l.map fun p => (p, f p)).foldl (fun m e => m.insert e.1 e.2) m).get? k =
      if k ∈ l then some (f k) else m.get? k := by
  induction l generalizing m with
  | nil => rfl
  | cons p l ih =>
    rw [List.map_cons, List.foldl_cons, ih, get?_insert]
    by_cases hl : k ∈ l
    · simp [hl]
    · by_cases hp : k = p
      · subst hp; simp
      · simp [hl, hp]

theorem KeyMap.get?_ofList_map {β : Type} (f : String → β) (l : List String) (k : String) :
    (ofList (l.map fun p => (p, f p))).get? k = if k ∈ l then some (f k) else none :=
  get?_foldl_insert f l empty k

theorem Tracker.hashes_stampAll (t : Tracker) (s : Source) (paths : KeySet) :
    stampedHashes (t.stampAll d s paths).1 = paths.hashes d s := by
  unfold stampedHashes stampAll
  rw [KeyMap.mapValues_ofList, hashes_observeEach]
  apply KeyMap.ext_get?
  intro k
  rw [KeyMap.get?_ofList_map, KeySet.get?_hashes]
  simp only [KeySet.mem_toList]

/-- **A record holds the hashes of the source**, whatever the tracker held before. -/
theorem References.hashes_stamped (r : References) (t : Tracker) (s : Source) :
    (r.stamped d t s).1.hashes = r.hashes d s := by
  unfold stamped
  cases ht : r.typings with
  | none => simp only [Dependencies.hashes, hashes, ht, Tracker.hashes_stampAll, Option.map_none]
  | some typings =>
    simp only [Dependencies.hashes, hashes, ht, Tracker.hashes_stampAll, Option.map_some]

/-! ## Staleness without a tracker -/

variable (d)

/-- Whether a recorded path has another hash now. -/
def Source.changed (s : Source) (recorded : KeyMap Stamp) : Bool :=
  recorded.entries.any fun e => e.2.hash != s.hashAt d e.1

/-- Whether the ambient typings in effect are others than the recorded ones. -/
def Source.typingsDiffer (s : Source) (roots : List String) : Option (KeyMap Stamp) → Bool
  | none => !roots.isEmpty
  | some files => roots.any (fun root => !files.contains root) || s.changed d files

/-- How stale a record is. -/
def Dependencies.staleness (deps : Dependencies) (roots : List String) (s : Source) : Staleness :=
  if s.typingsDiffer d roots deps.typings then .typings
  else if s.changed d deps.refFiles then .files
  else if s.changed d deps.modules then .modules
  else .fresh

variable {d}

theorem Tracker.zip_observeEach (t : Tracker) (s : Source) (l : List (String × Stamp)) :
    ((l.zip (t.observeEach d s (l.map (·.1))).1).filter
        fun e => e.1.2.hash != e.2.2.hash).map (·.1.1) =
      (l.filter fun e => e.2.hash != s.hashAt d e.1).map (·.1) := by
  induction l generalizing t with
  | nil => rfl
  | cons e l ih =>
    have hh := t.hash_observe (d := d) s e.1
    simp only [List.map_cons, observeEach, List.zip_cons_cons, List.filter_cons, hh]
    split
    · rw [List.map_cons, List.map_cons, ih]
    · rw [ih]

theorem stalePaths_fst (recorded : KeyMap Stamp) (t : Tracker) (s : Source) :
    (stalePaths d recorded t s).1 =
      (recorded.entries.filter fun e => e.2.hash != s.hashAt d e.1).map (·.1) :=
  t.zip_observeEach s recorded.entries

theorem stalePaths_eq_nil_iff (recorded : KeyMap Stamp) (t : Tracker) (s : Source) :
    (stalePaths d recorded t s).1 = [] ↔ s.changed d recorded = false := by
  rw [stalePaths_fst, List.map_eq_nil_iff, List.filter_eq_nil_iff, Source.changed,
    List.any_eq_false]

theorem isEmpty_stalePaths (recorded : KeyMap Stamp) (t : Tracker) (s : Source) :
    (stalePaths d recorded t s).1.isEmpty = !s.changed d recorded := by
  rw [Bool.eq_iff_iff, List.isEmpty_iff, stalePaths_eq_nil_iff, Bool.not_eq_true']

theorem typingsChanged_fst (recorded : Option (KeyMap Stamp)) (roots : List String) (t : Tracker)
    (s : Source) : (typingsChanged d recorded roots t s).1 = s.typingsDiffer d roots recorded := by
  unfold typingsChanged Source.typingsDiffer
  cases recorded with
  | none => rfl
  | some files =>
    dsimp only
    split
    · next h => rw [h]; rfl
    · next h =>
      rw [Bool.not_eq_true] at h
      rw [h, isEmpty_stalePaths, Bool.not_not, Bool.false_or]

/-- **How stale a record is does not depend on the tracker.** -/
theorem classify_fst (deps : Dependencies) (roots : List String) (t : Tracker) (s : Source) :
    (classify d deps roots t s).1 = deps.staleness d roots s := by
  unfold classify Dependencies.staleness
  have ht := typingsChanged_fst (d := d) deps.typings roots t s
  cases h : typingsChanged d deps.typings roots t s with
  | mk differ t₁ =>
    rw [h] at ht
    rw [← ht]
    cases differ with
    | true => rfl
    | false =>
      have hf := stalePaths_eq_nil_iff (d := d) deps.refFiles t₁ s
      cases h₂ : stalePaths d deps.refFiles t₁ s with
      | mk files t₂ =>
        rw [h₂] at hf
        cases files with
        | cons f fs => simp_all
        | nil =>
          have hm := stalePaths_eq_nil_iff (d := d) deps.modules t₂ s
          cases h₃ : stalePaths d deps.modules t₂ s with
          | mk modules t₃ =>
            rw [h₃] at hm
            cases modules <;> simp_all

/-! ## What staleness says about contents -/

theorem Source.changed_eq_false_iff {s : Source} {recorded : KeyMap Stamp} :
    s.changed d recorded = false ↔
      ∀ path stamp, recorded.get? path = some stamp → stamp.hash = s.hashAt d path := by
  rw [changed, List.any_eq_false]
  constructor
  · intro h path stamp hp
    simpa using h (path, stamp) ((KeyMap.mem_entries_iff recorded path stamp).2 hp)
  · intro h e he
    simpa using h e.1 e.2 ((KeyMap.mem_entries_iff recorded e.1 e.2).1 he)

theorem Source.agree_of_not_changed {s t : Source} (hd : d.Tells t s) {recorded : KeyMap Stamp}
    {paths : KeySet} (hr : stampedHashes recorded = paths.hashes d t)
    (h : s.changed d recorded = false) {path : String} (hp : path ∈ paths) : t.Agree s path := by
  have hk : (stampedHashes recorded).get? path = some (t.hashAt d path) := by
    rw [hr, KeySet.get?_hashes, if_pos hp]
  rw [stampedHashes, KeyMap.get?_mapValues, Option.map_eq_some_iff] at hk
  obtain ⟨stamp, hs, he⟩ := hk
  apply Source.hashAt_inj hd
  rw [← he, changed_eq_false_iff.1 h path stamp hs]

theorem Source.changed_eq_false_of_agree {s t : Source} {recorded : KeyMap Stamp}
    {paths : KeySet} (hr : stampedHashes recorded = paths.hashes d t)
    (h : ∀ path ∈ paths, t.Agree s path) : s.changed d recorded = false := by
  rw [changed_eq_false_iff]
  intro path stamp hp
  have hk : (stampedHashes recorded).get? path = some stamp.hash := by
    rw [stampedHashes, KeyMap.get?_mapValues, hp]; rfl
  rw [hr, KeySet.get?_hashes] at hk
  split at hk
  · next hm =>
    rw [← Option.some.inj hk, hashAt, hashAt, h path hm]
  · exact absurd hk (by simp)

/-- References look at the ambient typings from these roots on. -/
def References.Covers (r : References) (roots : List String) : Prop :=
  (r.typings = none → roots = []) ∧
    ∀ files, r.typings = some files → ∀ root ∈ roots, root ∈ files

/-- **A record is fresh if its sources agree on all that was looked at.** -/
theorem Dependencies.staleness_eq_fresh {s t : Source} {deps : Dependencies} {r : References}
    {roots : List String} (hu : deps.hashes = r.hashes d s) (hr : r.Covers roots)
    (hf : ∀ path ∈ r.refFiles, s.Agree t path) (hm : ∀ path ∈ r.modules, s.Agree t path)
    (ht : ∀ files, r.typings = some files → ∀ path ∈ files, s.Agree t path) :
    deps.staleness d roots t = .fresh := by
  have hfiles : t.changed d deps.refFiles = false :=
    Source.changed_eq_false_of_agree (congrArg Hashes.refFiles hu) hf
  have hmodules : t.changed d deps.modules = false :=
    Source.changed_eq_false_of_agree (congrArg Hashes.modules hu) hm
  have htypings : t.typingsDiffer d roots deps.typings = false := by
    have hstamps : deps.typings.map stampedHashes = r.typings.map (KeySet.hashes d s) :=
      congrArg Hashes.typings hu
    cases hrt : r.typings with
    | none =>
      rw [hrt, Option.map_none, Option.map_eq_none_iff] at hstamps
      rw [hstamps, hr.1 hrt]
      rfl
    | some files =>
      rw [hrt, Option.map_some] at hstamps
      obtain ⟨stamps, hst, hh⟩ := Option.map_eq_some_iff.1 hstamps
      rw [hst]
      refine Bool.or_eq_false_iff.2 ⟨?_, Source.changed_eq_false_of_agree hh (ht files hrt)⟩
      refine List.any_eq_false.2 fun root hroot => ?_
      have hk : (stampedHashes stamps).get? root = some (s.hashAt d root) := by
        rw [hh, KeySet.get?_hashes, if_pos (hr.2 files hrt root hroot)]
      rw [stampedHashes, KeyMap.get?_mapValues, Option.map_eq_some_iff] at hk
      obtain ⟨stamp, hs, -⟩ := hk
      simp [KeyMap.contains, hs]
  unfold staleness
  rw [htypings, hfiles, hmodules]
  rfl

end CompileCache
