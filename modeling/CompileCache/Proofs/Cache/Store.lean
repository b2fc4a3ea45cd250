import CompileCache.Cache.Basic
import CompileCache.Proofs.Digest.Plain
import CompileCache.Proofs.Disk.Leaves
import CompileCache.Proofs.Disk.Paths

/-!
# Store — what lookups find, and what they leave alone

* `Cache.lookup?_congr`: a lookup depends on the memory and on one file.
* **`Cache.lookup?_save`**, `Cache.held?_fetch_of_ne`: what is stored is found; the memory for other
  keys stays.
* **`Cache.names_entryPath_ne`**: the entry files of different keys have different names.
* `Cache.Holds`, `Cache.WellKeyed`: the entries in memory and on disk, and entries under their keys.
* **`Cache.holds_save`**, `Cache.holds_fetch`: which entries there are after an operation;
  `Cache.exists_of_lookup?`: what is found is one of them.
-/

namespace CompileCache

namespace Cache

variable {c c' : Cache} {d d' : Disk} {fp fp' : Fingerprint}

/-! ## Lookups -/

theorem directory_fetch (c : Cache) (d : Disk) (fp : Fingerprint) :
    (c.fetch d fp).directory = c.directory := by
  unfold fetch
  split
  · rfl
  · split <;> rfl

theorem get?_fetch_self (c : Cache) (d : Disk) (fp : Fingerprint) :
    (c.fetch d fp).memory.get? fp.key = (c.memory.get? fp.key).or (c.load? d fp) := by
  unfold fetch KeyMap.contains
  cases hm : c.memory.get? fp.key with
  | some e => simp [hm]
  | none =>
    cases hl : c.load? d fp with
    | none => simp [hm]
    | some e => simp

theorem lookup?_eq (c : Cache) (d : Disk) (fp : Fingerprint) :
    c.lookup? d fp = (c.held? fp).or ((c.load? d fp).map (·.unit)) := by
  unfold lookup? held?
  rw [get?_fetch_self, Option.map_or]

theorem load?_congr (hdir : c'.directory = c.directory)
    (hread : ∀ directory ∈ c.directory, (d'.read (entryPath directory fp.key)).toOption =
      (d.read (entryPath directory fp.key)).toOption) : c'.load? d' fp = c.load? d fp := by
  unfold load? entryPath?
  rw [hdir]
  cases hd : c.directory with
  | none => rfl
  | some directory =>
    have hr := hread directory hd
    dsimp only [Option.map_some]
    cases h : d.read (entryPath directory fp.key) with
    | error f =>
      cases h' : d'.read (entryPath directory fp.key) with
      | error f' => rfl
      | ok b => rw [h, h'] at hr; cases hr
    | ok b =>
      cases h' : d'.read (entryPath directory fp.key) with
      | error f' => rw [h, h'] at hr; cases hr
      | ok b' => rw [h, h'] at hr; cases hr; rfl

theorem lookup?_congr (hheld : c'.held? fp = c.held? fp) (hdir : c'.directory = c.directory)
    (hread : ∀ directory ∈ c.directory, (d'.read (entryPath directory fp.key)).toOption =
      (d.read (entryPath directory fp.key)).toOption) :
    c'.lookup? d' fp = c.lookup? d fp := by
  rw [lookup?_eq, lookup?_eq, hheld, load?_congr hdir hread]

theorem get_reuse {ε : Type} (c : Cache) (d : Disk) (fp : Fingerprint) (f : CacheError → ε) :
    (c.get d fp f fun _ => .ok .reuse).2 = (c.fetch d fp, d) := by
  unfold get settle
  dsimp only
  cases (c.fetch d fp).held? fp <;> rfl

theorem held?_fetch_of_ne (c : Cache) (d : Disk) (h : fp'.key ≠ fp.key) :
    (c.fetch d fp).held? fp' = c.held? fp' := by
  unfold fetch
  split
  · rfl
  · split
    · rfl
    · unfold held?
      rw [KeyMap.get?_insert_of_ne _ _ h]

theorem lookup?_of_held? {u : Artifact} (h : c.held? fp = some u) (d : Disk) :
    c.lookup? d fp = some u := by
  rw [lookup?_eq, h]; rfl

/-- **What is stored is found**, whatever happens to the disk. -/
theorem lookup?_save (c : Cache) (d d' : Disk) (fp : Fingerprint) (u : Artifact) :
    (c.save d fp u).1.lookup? d' fp = some u := lookup?_of_held? (held?_save_self c d fp u) d'

theorem lookup?_fetch {u : Artifact} (h : c.lookup? d fp = some u) (d' : Disk) :
    (c.fetch d fp).lookup? d' fp = some u := lookup?_of_held? h d'

theorem load?_fetch (c : Cache) (d : Disk) (fp fp' : Fingerprint) :
    (c.fetch d fp).load? d fp' = c.load? d fp' := by
  unfold load? entryPath?
  rw [directory_fetch]

/-- **Fetching changes no lookup**, also not that of other keys. -/
theorem lookup?_fetch_eq (c : Cache) (d : Disk) (h : fp' = fp ∨ fp'.key ≠ fp.key) :
    (c.fetch d fp).lookup? d fp' = c.lookup? d fp' := by
  rcases h with rfl | hne
  · rw [lookup?_eq, load?_fetch]
    change (c.lookup? d fp').or _ = c.lookup? d fp'
    rw [lookup?_eq, Option.or_assoc, Option.or_self]
  · exact lookup?_congr (held?_fetch_of_ne c d hne) (directory_fetch c d fp) fun _ _ => rfl

/-! ## Entry files -/

theorem slash_not_mem_entryName {key : String} (h : '/' ∉ key.toList) :
    '/' ∉ (key ++ ".rkyv").toList := by
  rw [String.toList_append, List.mem_append]
  rintro (hm | hm)
  · exact h hm
  · exact absurd hm (by decide)

theorem isIdle_entryName (key : String) : Path.isIdle (key ++ ".rkyv") = false := by
  have hn : ∀ s : String, s.toList.length < 2 → key ++ ".rkyv" ≠ s := by
    rintro s hs rfl
    rw [String.toList_append, List.length_append] at hs
    have htail : ".rkyv".toList.length = 5 := rfl
    omega
  simp [Path.isIdle, hn "" (by decide), hn "." (by decide)]

theorem names_entryPath (directory : String) {key : String} (h : '/' ∉ key.toList) :
    Path.names (entryPath directory key) = Path.names directory ++ ["entries", key ++ ".rkyv"] := by
  have hk := slash_not_mem_entryName h
  rw [entryPath, Path.names_join _ (Path.isAbsolute_of_plain hk), Path.names_join _ (by decide),
    Path.names_of_plain hk (isIdle_entryName key),
    Path.names_of_plain (k := "entries") (by decide) (by decide), List.append_assoc]
  rfl

theorem names_entryPath_ne (directory : String) {key key' : String} (h : '/' ∉ key.toList)
    (h' : '/' ∉ key'.toList) (hne : key' ≠ key) :
    Path.names (entryPath directory key') ≠ Path.names (entryPath directory key) := by
  rw [names_entryPath directory h, names_entryPath directory h']
  intro he
  have hl := List.append_cancel_left he
  have hk : key' ++ ".rkyv" = key ++ ".rkyv" := by simpa using hl
  exact hne ((String.append_left_inj ".rkyv").1 hk)

/-! ## Entries -/

/-- There is an entry, in memory or on disk. -/
def Holds (c : Cache) (d : Disk) (e : Entry) : Prop :=
  (∃ key, c.memory.get? key = some e) ∨ d.HasEntry e

/-- The entries in memory are under their keys. -/
def WellKeyed (c : Cache) : Prop := ∀ key e, c.memory.get? key = some e → e.fingerprint.key = key

theorem wellKeyed_of_empty {directory : Option String} : WellKeyed ⟨directory, .empty⟩ := by
  intro key e h
  cases h

theorem load?_eq_some_iff {e : Entry} : c.load? d fp = some e ↔
    e.fingerprint = fp ∧ ∃ dir ∈ c.directory, d.read (entryPath dir fp.key) = .ok (.entry e) := by
  unfold load? entryPath? Entry.isFor
  cases c.directory with
  | none => simp
  | some dir =>
    simp only [Option.map_some, Option.mem_some_iff, exists_eq_left', decide_eq_true_eq]
    split
    · next e' hr =>
      rw [hr]
      split
      · next hf => grind
      · next hf => grind
    · next hr => grind

theorem load?_eq_some {e : Entry} (h : c.load? d fp = some e) :
    d.HasEntry e ∧ e.fingerprint = fp := by
  obtain ⟨hf, dir, -, hr⟩ := load?_eq_some_iff.1 h
  exact ⟨Disk.hasEntry_of_read hr, hf⟩

theorem holds_fetch {e : Entry} (h : (c.fetch d fp).Holds d e) : c.Holds d e := by
  unfold fetch at h
  split at h
  · exact h
  · split at h
    · exact h
    · next e' hl =>
      rcases h with ⟨key, hk⟩ | h
      · rw [KeyMap.get?_insert] at hk
        split at hk
        · cases hk
          exact .inr (load?_eq_some hl).1
        · exact .inl ⟨key, hk⟩
      · exact .inr h

theorem WellKeyed.fetch (h : c.WellKeyed) (d : Disk) (fp : Fingerprint) :
    (c.fetch d fp).WellKeyed := by
  unfold Cache.fetch
  split
  · exact h
  · split
    · exact h
    · next e' hl =>
      intro key e hk
      rw [KeyMap.get?_insert] at hk
      split at hk
      · next he =>
        cases hk
        rw [he, (load?_eq_some hl).2]
      · exact h key e hk

/-- **The entries after storing** were there before, or were stored. -/
theorem holds_save {u : Artifact} {e : Entry}
    (h : (c.save d fp u).1.Holds (c.save d fp u).2 e) : c.Holds d e ∨ e = ⟨fp, u⟩ := by
  rcases h with ⟨key, hk⟩ | h
  · unfold save at hk
    rw [KeyMap.get?_insert] at hk
    split at hk
    · cases hk
      exact .inr rfl
    · exact .inl (.inl ⟨key, hk⟩)
  · unfold save writeEntry at h
    dsimp only at h
    split at h
    · exact .inl (.inr h)
    · rcases Disk.hasEntry_writeUnder h with h | h
      · exact .inl (.inr h)
      · cases h
        exact .inr rfl

theorem WellKeyed.save (h : c.WellKeyed) (d : Disk) (fp : Fingerprint) (u : Artifact) :
    (c.save d fp u).1.WellKeyed := by
  intro key e hk
  unfold Cache.save at hk
  rw [KeyMap.get?_insert] at hk
  split at hk
  · next he =>
    cases hk
    exact he.symm
  · exact h key e hk

theorem exists_of_lookup? (hw : c.WellKeyed) {u : Artifact} (h : c.lookup? d fp = some u) :
    ∃ e, c.Holds d e ∧ e.fingerprint.key = fp.key ∧ e.unit = u := by
  unfold lookup? held? at h
  obtain ⟨e, he, hu⟩ := Option.map_eq_some_iff.1 h
  exact ⟨e, holds_fetch (.inl ⟨fp.key, he⟩), hw.fetch d fp _ _ he, hu⟩

end Cache

end CompileCache
