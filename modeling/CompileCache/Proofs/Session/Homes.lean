import CompileCache.Proofs.Session.Frames
import CompileCache.Proofs.Session.Sound
import CompileCache.Proofs.Tracker.Saved

/-!
# Homes — sessions that stay with one cache directory

* `Session.Homed`: one slot for each architecture, and all tables in the folder of one directory.
* `Session.trackerFor`: the tracker that a registration for an architecture finds or loads.
* `WorkingSet.of?`, `Session.register_eq`: what is registered does not hang on the session.
* **`Session.Homed.register`**, **`Session.Homed.emit`**: what a session does keeps it at home, and
  leaves the trackers of other architectures.
-/

namespace CompileCache

variable {σ : Type} {d : Digest} {e : Engine σ}

/-- The working set of a registration, or why there is none. -/
def WorkingSet.of? (paths : List String) (origin : Origin) (options : Options) :
    Except BuildError WorkingSet :=
  match options.validate with
  | .error err => .error (.config err)
  | .ok () =>
    match options.excludeGlobs with
    | .error err => .error (.config err)
    | .ok globs => .ok ⟨workingFiles globs paths, origin, options⟩

theorem WorkingSet.plain_of? {paths : List String} {origin : Origin} {options : Options}
    {set : WorkingSet} (h : of? paths origin options = .ok set) :
    '/' ∉ set.options.arch.toList := by
  unfold of? at h
  split at h
  · cases h
  · next hv =>
    split at h
    · cases h
    · cases h
      unfold Options.validate at hv
      split at hv
      · cases hv
      · next hi =>
        have hid : isIdentifier options.arch = true := by simpa using hi
        unfold isIdentifier at hid
        rw [Bool.and_eq_true, List.all_eq_true] at hid
        intro hslash
        exact absurd (hid.2 _ hslash) (by decide)

namespace Session

/-- A session whose slots are all in use, one for each architecture, with their tables in the folder
of one directory. -/
structure Homed (s : Session σ) (directory : String) : Prop where
  bound : s.cache.directory = some directory
  places : ∀ arch i,
    s.places.get? arch = some i ↔ ∃ slot, s.slots[i]? = some slot ∧ slot.arch = arch
  tables : ∀ slot ∈ s.slots, slot.tableFile = some (Slot.tablePath directory slot.arch)
  plain : ∀ slot ∈ s.slots, '/' ∉ slot.arch.toList

/-- The tracker that a registration for an architecture finds, or loads. -/
def trackerFor (s : Session σ) (disk : Disk) (directory arch : String) : Tracker :=
  ((s.slot? arch).map (·.tracker)).getD (Tracker.load disk (Slot.tablePath directory arch))

/-- A build belongs to the slot of its architecture. -/
def Places (s : Session σ) (b : Build) : Prop :=
  ∃ slot, s.slots[b.slot]? = some slot ∧ slot.arch = b.set.options.arch

/-- The session with another slot at a place, and another cache. -/
def put (s : Session σ) (i : Nat) (slot : Slot σ) (cache : Cache) : Session σ :=
  { s with slots := s.slots.set i slot, cache }

variable {s s' : Session σ} {directory arch : String} {disk disk' : Disk} {i : Nat}
  {slot slot' : Slot σ} {cache : Cache}

theorem Homed.new (directory : String) :
    (Session.new (.onDisk directory) : Session σ).Homed directory where
  bound := rfl
  places arch i := by
    constructor
    · nofun
    · rintro ⟨slot, hs, -⟩
      cases i <;> cases hs
  tables slot hs := absurd hs List.not_mem_nil
  plain slot hs := absurd hs List.not_mem_nil

theorem Homed.placed?_eq (h : s.Homed directory) (hi : s.slots[i]? = some slot) :
    s.placed? slot.arch = some (i, slot) := by
  unfold placed?
  rw [(h.places slot.arch i).2 ⟨slot, hi, rfl⟩, Option.bind_some, hi]
  rfl

theorem Homed.arch_of_placed? (h : s.Homed directory) (hp : s.placed? arch = some (i, slot)) :
    slot.arch = arch := by
  have hi := getElem?_of_placed? hp
  unfold placed? at hp
  obtain ⟨j, hj, hm⟩ := Option.bind_eq_some_iff.1 hp
  obtain ⟨slot', -, he⟩ := Option.map_eq_some_iff.1 hm
  cases he
  obtain ⟨slot', hs, rfl⟩ := (h.places arch i).1 hj
  rw [hi] at hs
  cases hs
  rfl

theorem Homed.trackerFor_eq (h : s.Homed directory) (hi : s.slots[i]? = some slot) :
    s.trackerFor disk directory slot.arch = slot.tracker := by
  unfold trackerFor slot?
  rw [h.placed?_eq hi]
  rfl

/-! ## Slots that are put at their places -/

section Put

variable (hi : s.slots[i]? = some slot)
include hi

theorem Homed.put (h : s.Homed directory) (harch : slot'.arch = slot.arch)
    (htable : slot'.tableFile = slot.tableFile)
    (hbound : cache.directory = s.cache.directory) : (s.put i slot' cache).Homed directory where
  bound := hbound.trans h.bound
  places a j := by
    change s.places.get? a = some j ↔ ∃ t, (s.slots.set i slot')[j]? = some t ∧ t.arch = a
    rw [h.places a j]
    by_cases hj : j = i
    · subst hj
      rw [List.getElem?_set_self (List.getElem?_eq_some_iff.1 hi).1, hi]
      simp [harch]
    · rw [List.getElem?_set_ne (Ne.symm hj)]
  tables t ht := by
    rcases List.mem_or_eq_of_mem_set ht with ht | rfl
    · exact h.tables t ht
    · rw [htable, harch]
      exact h.tables slot (List.mem_of_getElem? hi)
  plain t ht := by
    rcases List.mem_or_eq_of_mem_set ht with ht | rfl
    · exact h.plain t ht
    · rw [harch]
      exact h.plain slot (List.mem_of_getElem? hi)

theorem Homed.slot?_put_of_ne (h : s.Homed directory) (hne : arch ≠ slot.arch) :
    (s.put i slot' cache).slot? arch = s.slot? arch := by
  unfold slot? placed? Session.put
  dsimp only
  cases hp : s.places.get? arch with
  | none => rfl
  | some j =>
    rw [Option.bind_some, Option.bind_some, List.getElem?_set_ne]
    rintro rfl
    obtain ⟨t, ht, rfl⟩ := (h.places arch i).1 hp
    rw [hi] at ht
    cases ht
    exact hne rfl

theorem Homed.slot?_put_self (h : s.Homed directory) (harch : slot'.arch = slot.arch)
    (htable : slot'.tableFile = slot.tableFile) (hbound : cache.directory = s.cache.directory) :
    (s.put i slot' cache).slot? slot.arch = some slot' := by
  have hi' : (s.put i slot' cache).slots[i]? = some slot' :=
    List.getElem?_set_self (List.getElem?_eq_some_iff.1 hi).1
  unfold slot?
  rw [← harch, (h.put hi harch htable hbound).placed?_eq hi']
  rfl

theorem Homed.trackerFor_put (h : s.Homed directory) (harch : slot'.arch = slot.arch)
    (htable : slot'.tableFile = slot.tableFile) (hbound : cache.directory = s.cache.directory)
    (hload : arch ≠ slot.arch → Tracker.load disk' (Slot.tablePath directory arch) =
      Tracker.load disk (Slot.tablePath directory arch)) :
    (s.put i slot' cache).trackerFor disk' directory arch =
      if arch = slot.arch then slot'.tracker else s.trackerFor disk directory arch := by
  split
  · next ha =>
    unfold trackerFor
    rw [ha, h.slot?_put_self hi harch htable hbound]
    rfl
  · next ha =>
    unfold trackerFor
    rw [h.slot?_put_of_ne hi ha, hload ha]

theorem Places.put {b : Build} (hb : s.Places b) (harch : slot'.arch = slot.arch) :
    (s.put i slot' cache).Places b := by
  obtain ⟨t, ht, ha⟩ := hb
  by_cases hj : b.slot = i
  · rw [hj, hi] at ht
    cases ht
    refine ⟨slot', ?_, harch.trans ha⟩
    rw [hj]
    exact List.getElem?_set_self (List.getElem?_eq_some_iff.1 hi).1
  · exact ⟨t, (List.getElem?_set_ne (Ne.symm hj)).trans ht, ha⟩

end Put

/-! ## Registering -/

/-- **What is registered does not hang on the session.** -/
theorem register_eq (s : Session σ) (disk : Disk) (paths : List String) (origin : Origin)
    (options : Options) : s.register e disk paths origin options =
      match WorkingSet.of? paths origin options with
      | .error err => (.error err, s, [])
      | .ok set =>
        (.ok (s.registerFiles e disk set).1, (s.registerFiles e disk set).2.1,
          (s.registerFiles e disk set).2.2) := by
  unfold register WorkingSet.of?
  cases options.validate with
  | error err => rfl
  | ok u => cases options.excludeGlobs <;> rfl

theorem registerFiles_of_register {paths : List String} {origin : Origin} {options : Options}
    {b : Build} {calls : List Call}
    (h : s.register e disk paths origin options = (.ok b, s', calls)) :
    ∃ set, WorkingSet.of? paths origin options = .ok set ∧
      s.registerFiles e disk set = (b, s', calls) := by
  rw [register_eq] at h
  split at h
  · cases h
  · next set hset => cases h; exact ⟨set, hset, rfl⟩

/-- What a session is after slots were made or loaded. -/
structure Extends (s s' : Session σ) (disk : Disk) (directory : String) : Prop where
  homed : s'.Homed directory
  cache : s'.cache = s.cache
  trackers : ∀ arch, s'.trackerFor disk directory arch = s.trackerFor disk directory arch
  places : ∀ b, s.Places b → s'.Places b

theorem Homed.slot?_addSlot (h : s.Homed directory) (disk : Disk) {a : String} (ha : a ≠ arch) :
    (s.addSlot e disk arch).2.2.1.slot? a = s.slot? a := by
  unfold slot? placed? Session.addSlot
  dsimp only
  rw [KeyMap.get?_insert_of_ne _ _ ha]
  cases hj : s.places.get? a with
  | none => rfl
  | some j =>
    obtain ⟨t, ht, -⟩ := (h.places a j).1 hj
    rw [Option.bind_some, Option.bind_some,
      List.getElem?_append_left (List.getElem?_eq_some_iff.1 ht).1]

section AddSlot

variable (h : s.Homed directory) (hp : s.placed? arch = none)
include h hp

theorem Homed.arch_ne (hi : s.slots[i]? = some slot) : slot.arch ≠ arch := by
  rintro rfl
  rw [h.placed?_eq hi] at hp
  cases hp

theorem Homed.places_addSlot (disk : Disk) (a : String) (j : Nat) :
    (s.addSlot e disk arch).2.2.1.places.get? a = some j ↔
      ∃ t, (s.addSlot e disk arch).2.2.1.slots[j]? = some t ∧ t.arch = a := by
  change (s.places.insert arch s.slots.length).get? a = some j ↔
    ∃ t, (s.slots ++ [Slot.new e disk s.cache.directory arch])[j]? = some t ∧ t.arch = a
  rw [KeyMap.get?_insert]
  rcases Nat.lt_trichotomy j s.slots.length with hj | hj | hj
  · -- a slot that was there
    rw [List.getElem?_append_left hj]
    split
    · next ha =>
      subst ha
      constructor
      · intro he
        cases he
        exact absurd hj (Nat.lt_irrefl _)
      · rintro ⟨t, ht, hta⟩
        exact absurd hta (h.arch_ne hp ht)
    · exact h.places a j
  · -- the one that was made
    subst hj
    rw [List.getElem?_append_right (Nat.le_refl _), Nat.sub_self]
    split
    · next ha => simp [ha, Slot.new]
    · next ha =>
      constructor
      · intro he
        obtain ⟨t, ht, -⟩ := (h.places a _).1 he
        exact absurd (List.getElem?_eq_some_iff.1 ht).1 (Nat.lt_irrefl _)
      · rintro ⟨t, ht, hta⟩
        cases ht
        exact absurd hta.symm ha
  · -- no slot
    rw [List.getElem?_eq_none (by simp; omega)]
    constructor
    · intro he
      split at he
      · cases he
        exact absurd hj (Nat.lt_irrefl _)
      · obtain ⟨t, ht, -⟩ := (h.places a j).1 he
        exact absurd (List.getElem?_eq_some_iff.1 ht).1 (by omega)
    · rintro ⟨t, ht, -⟩
      cases ht

theorem Homed.addSlot (harch : '/' ∉ arch.toList) :
    s.Extends (s.addSlot e disk arch).2.2.1 disk directory := by
  have hhomed : (s.addSlot e disk arch).2.2.1.Homed directory := by
    refine ⟨h.bound, h.places_addSlot hp disk, fun t ht => ?_, fun t ht => ?_⟩
    · rcases List.mem_append.1 ht with ht | ht
      · exact h.tables t ht
      · rw [List.mem_singleton.1 ht]
        change s.cache.directory.map _ = _
        rw [h.bound]
        rfl
    · rcases List.mem_append.1 ht with ht | ht
      · exact h.plain t ht
      · rw [List.mem_singleton.1 ht]
        exact harch
  refine ⟨hhomed, rfl, fun a => ?_, ?_⟩
  · by_cases ha : a = arch
    · subst ha
      refine Eq.trans (hhomed.trackerFor_eq (s.getElem?_addSlot e disk a)) ?_
      unfold trackerFor slot? Slot.new
      rw [hp, h.bound]
      rfl
    · unfold trackerFor
      rw [h.slot?_addSlot disk ha]
  · rintro b ⟨t, ht, hta⟩
    refine ⟨t, ?_, hta⟩
    change (s.slots ++ [_])[b.slot]? = some t
    rw [List.getElem?_append_left (List.getElem?_eq_some_iff.1 ht).1]
    exact ht

end AddSlot

theorem Homed.slotFor (h : s.Homed directory) (disk : Disk) (harch : '/' ∉ arch.toList) :
    s.Extends (s.slotFor e disk arch).2.2.1 disk directory ∧
      (s.slotFor e disk arch).2.2.1.slots[(s.slotFor e disk arch).1]? =
        some (s.slotFor e disk arch).2.1 ∧ (s.slotFor e disk arch).2.1.arch = arch := by
  unfold Session.slotFor
  cases hp : s.placed? arch with
  | some p =>
    exact ⟨⟨h, rfl, fun _ => rfl, fun _ => id⟩, getElem?_of_placed? hp, h.arch_of_placed? hp⟩
  | none => exact ⟨h.addSlot hp harch, s.getElem?_addSlot e disk arch, rfl⟩

/-- **Registering leaves a session at home, with the trackers that it had.** -/
theorem Homed.registerFiles (h : s.Homed directory) (disk : Disk) {set : WorkingSet}
    (harch : '/' ∉ set.options.arch.toList) :
    s.Extends (s.registerFiles e disk set).2.1 disk directory ∧
      (s.registerFiles e disk set).2.1.Places (s.registerFiles e disk set).1 := by
  obtain ⟨hext, hi, ha⟩ := h.slotFor (e := e) disk harch
  unfold Session.registerFiles
  generalize s.slotFor e disk set.options.arch = r at hext hi ha
  obtain ⟨i, slot, s₁, creates⟩ := r
  have hput : s₁.put i (slot.register e set) s₁.cache =
      { s₁ with slots := s₁.slots.set i (slot.register e set) } := rfl
  dsimp only at hext hi ha ⊢
  rw [← hput]
  have hhomed : (s₁.put i (slot.register e set) s₁.cache).Homed directory :=
    hext.homed.put hi rfl rfl rfl
  have htrackers : ∀ a, (s₁.put i (slot.register e set) s₁.cache).trackerFor disk directory a =
      if a = slot.arch then (slot.register e set).tracker else s₁.trackerFor disk directory a :=
    fun a => hext.homed.trackerFor_put hi rfl rfl rfl fun _ => rfl
  refine ⟨⟨hhomed, hext.cache, fun a => ?_, fun b hb => (hext.places b hb).put hi rfl⟩, ?_⟩
  · rw [htrackers, ← hext.trackers a]
    split
    · next h => rw [h, hext.homed.trackerFor_eq hi]; rfl
    · rfl
  · exact ⟨_, List.getElem?_set_self (List.getElem?_eq_some_iff.1 hi).1, ha⟩

theorem Homed.register (h : s.Homed directory) {paths : List String} {origin : Origin}
    {options : Options} {b : Build} {calls : List Call}
    (hr : s.register e disk paths origin options = (.ok b, s', calls)) :
    s.Extends s' disk directory ∧ s'.Places b := by
  obtain ⟨set, hset, hfiles⟩ := registerFiles_of_register hr
  have hregister := h.registerFiles (e := e) disk (WorkingSet.plain_of? hset)
  rw [hfiles] at hregister
  exact hregister

/-! ## Emitting -/

variable {b : Build} {w : World}

theorem emit_eq_put (hi : s.slots[b.slot]? = some slot) (path : String)
    (moduleName : Option String) : s.emit d e w b path moduleName =
      let r := Desk.emit d e ⟨slot, s.cache, w.disk⟩ (Origin.source w) b path moduleName
      ⟨r.answer, s.put b.slot r.desk.slot r.desk.cache, r.desk.disk, r.calls⟩ := by
  unfold emit
  rw [hi]
  rfl

end Session

namespace Desk

variable {k : Desk σ} {view : View} {b : Build} {path directory : String}
  {moduleName : Option String}

theorem arch_emit (k : Desk σ) (view : View) (b : Build) (path : String)
    (moduleName : Option String) :
    (k.emit d e view b path moduleName).desk.slot.arch = k.slot.arch := by
  rcases k.station_emit (d := d) (e := e) view b path moduleName with h | h
  · rw [h]
  · exact congrArg (·.1) h

theorem orderly_emit (h : k.disk.Orderly directory) (view : View) (b : Build) (path : String)
    (moduleName : Option String) :
    (k.emit d e view b path moduleName).desk.disk.Orderly directory := by
  rcases emit_eq_or (d := d) (e := e) k view b path moduleName with he | ⟨content, -, -, he⟩
  · rw [he]; exact h
  have hwork : (k.workOf d e view b path content moduleName).desk.disk.Orderly directory := by
    rcases (way_workOf k view b path content moduleName).disk_eq with hk | ⟨_, -, body, hk⟩
    · rw [hk]; exact h
    · rw [hk]; exact h.writeUnder _ _
  rw [he, emitContent_eq]
  dsimp only
  rcases disk_finish (k.slot.tracker.version d path content).1
    (k.workOf d e view b path content moduleName) with hk | ⟨file, -, text, hk⟩
  · rw [hk]; exact hwork
  · rw [hk]; exact hwork.writeUnder _ _

/-- A desk of a session at home. -/
structure AtHome (k : Desk σ) (directory : String) : Prop where
  orderly : k.disk.Orderly directory
  bound : k.cache.directory = some directory
  table : k.slot.tableFile = some (Slot.tablePath directory k.slot.arch)
  plain : '/' ∉ k.slot.arch.toList

theorem AtHome.direct (h : k.AtHome directory) : k.Direct := by
  intro dir hd
  rw [h.bound] at hd
  cases hd
  refine ⟨fun key hkey => h.orderly.entry hkey, fun file hf => ?_⟩
  rw [h.table] at hf
  cases hf
  exact h.orderly.table h.plain

theorem AtHome.inOrder {L : σ → WorkingSet → Prop} (h : k.AtHome directory)
    (hl : k.slot.active = b.registration → L k.slot.engine b.set) : k.InOrder L b where
  loaded := hl
  tables file hf := by
    rw [h.table] at hf
    cases hf
    exact ⟨directory, _, rfl⟩
  direct := h.direct

/-- **The tables of other architectures stay.** -/
theorem AtHome.load_emit_of_ne (h : k.AtHome directory) (hp : d.Plain) {arch : String}
    (harch : '/' ∉ arch.toList) (hne : arch ≠ k.slot.arch) (view : View) (b : Build)
    (path : String) (moduleName : Option String) :
    Tracker.load (k.emit d e view b path moduleName).desk.disk (Slot.tablePath directory arch) =
      Tracker.load k.disk (Slot.tablePath directory arch) := by
  refine Tracker.load_congr (read_emit_of_ne (h.orderly.table harch) ?_ ?_)
  · intro content hc dir hd
    rw [h.bound] at hd
    cases hd
    exact ⟨h.orderly.entry (hp _), (names_entryPath_ne_tablePath _ _ _ _).symm⟩
  · intro file hf
    rw [h.table] at hf
    cases hf
    exact ⟨h.orderly.table h.plain, Slot.names_tablePath_ne directory h.plain harch hne⟩

end Desk

namespace Session

variable {s : Session σ} {directory : String} {slot : Slot σ} {b : Build} {w : World}

theorem Homed.atHome (h : s.Homed directory) (ho : w.disk.Orderly directory)
    {i : Nat} (hi : s.slots[i]? = some slot) :
    Desk.AtHome ⟨slot, s.cache, w.disk⟩ directory where
  orderly := ho
  bound := h.bound
  table := h.tables slot (List.mem_of_getElem? hi)
  plain := h.plain slot (List.mem_of_getElem? hi)

/-- **An emit leaves a session at home, with the trackers of the other architectures.** -/
theorem Homed.emit (h : s.Homed directory) (ho : w.disk.Orderly directory) (hp : d.Plain)
    (hi : s.slots[b.slot]? = some slot) (path : String) (moduleName : Option String) :
    let r := Desk.emit d e ⟨slot, s.cache, w.disk⟩ (Origin.source w) b path moduleName
    (s.put b.slot r.desk.slot r.desk.cache).Homed directory ∧
    (∀ b', s.Places b' → (s.put b.slot r.desk.slot r.desk.cache).Places b') ∧
    ∀ arch, '/' ∉ arch.toList →
      (s.put b.slot r.desk.slot r.desk.cache).trackerFor r.desk.disk directory arch =
        if arch = slot.arch then r.desk.slot.tracker
        else s.trackerFor w.disk directory arch := by
  intro r
  have hhome := h.atHome ho hi
  have harch : r.desk.slot.arch = slot.arch := Desk.arch_emit _ _ _ _ _
  have htable : r.desk.slot.tableFile = slot.tableFile := Desk.tableFile_emit _ _ _ _ _
  have hbound : r.desk.cache.directory = s.cache.directory := Desk.directory_emit _ _ _ _ _
  exact ⟨h.put hi harch htable hbound, fun b' hb => hb.put hi harch, fun arch ha =>
    h.trackerFor_put hi harch htable hbound fun hne =>
      hhome.load_emit_of_ne hp ha hne (Origin.source w) b path moduleName⟩

end Session

end CompileCache
