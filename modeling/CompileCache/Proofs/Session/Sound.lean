import CompileCache.Proofs.Session.Emits
import CompileCache.Session.Run

/-!
# Sound — sessions know their builds

* `Session.register_cases`: a registration makes a build, or changes nothing.
* `Session.Sound`: each build has its slot; a slot that is active for a build has a compiler that is
  loaded with it; tables of versions are where they belong.
* `Session.Sound.register`, **`Session.Sound.emit`**: what a session does keeps this.
* `Host.Sound`, `Host.Sound.step`, **`Host.Reachable.sound`**: it holds of all sessions at all
  times.
-/

namespace CompileCache

variable {σ : Type} {d : Digest} {e : Engine σ} {L : σ → WorkingSet → Prop}

/-! ## Slots in use -/

namespace Session

variable {s s' : Session σ}

theorem getElem?_of_placed? {arch : String} {j : Nat} {slot : Slot σ}
    (h : s.placed? arch = some (j, slot)) : s.slots[j]? = some slot := by
  unfold placed? at h
  obtain ⟨j', -, hj⟩ := Option.bind_eq_some_iff.1 h
  obtain ⟨slot', hs, he⟩ := Option.map_eq_some_iff.1 hj
  cases he
  exact hs

theorem getElem?_addSlot (s : Session σ) (e : Engine σ) (disk : Disk) (arch : String) :
    (s.addSlot e disk arch).2.2.1.slots[s.slots.length]? =
      some (.new e disk s.cache.directory arch) := by
  change (s.slots ++ [_])[s.slots.length]? = _
  rw [List.getElem?_append_right (Nat.le_refl _), Nat.sub_self]
  rfl

theorem register_cases (e : Engine σ) (s : Session σ) (disk : Disk) (paths : List String)
    (origin : Origin) (options : Options) :
    (∃ err, s.register e disk paths origin options = (.error err, s, [])) ∨
      ∃ b s' calls, s.register e disk paths origin options = (.ok b, s', calls) := by
  unfold register
  split
  · exact .inl ⟨_, rfl⟩
  · split
    · exact .inl ⟨_, rfl⟩
    · exact .inr ⟨_, _, _, rfl⟩

end Session

/-- Slots know the builds of `B`; `L` tells of a compiler that it is loaded with a working set. -/
structure Session.Sound (L : σ → WorkingSet → Prop) (s : Session σ) (B : Build → Prop) : Prop where
  known : ∀ b, B b → ∃ slot, s.slots[b.slot]? = some slot ∧ b.registration ≤ slot.issued ∧
    (slot.active = b.registration → L slot.engine b.set)
  unique : ∀ b b', B b → B b' → b.slot = b'.slot → b.registration = b'.registration → b.set = b'.set
  tables : ∀ slot ∈ s.slots, ∀ file ∈ slot.tableFile,
    ∃ directory arch, file = Slot.tablePath directory arch

namespace Session.Sound

variable {s : Session σ} {B C : Build → Prop}

theorem mono (h : s.Sound L B) (hc : ∀ b, C b → B b) : s.Sound L C where
  known b hb := h.known b (hc b hb)
  unique b b' hb hb' := h.unique b b' (hc b hb) (hc b' hb')
  tables := h.tables

theorem of_slots {s' : Session σ} (h : s.Sound L B) (hs : s'.slots = s.slots) : s'.Sound L B where
  known := by rw [hs]; exact h.known
  unique := h.unique
  tables := by rw [hs]; exact h.tables

theorem new (cache : Cache) : (Session.new cache : Session σ).Sound L fun _ => False where
  known _ hb := hb.elim
  unique _ _ hb := hb.elim
  tables _ hs := absurd hs List.not_mem_nil

/-! ## Registering -/

theorem registerAt (hk : e.Keeps L) (h : s.Sound L B) {i : Nat} {slot : Slot σ}
    (hi : s.slots[i]? = some slot) (set : WorkingSet) :
    Session.Sound L { s with slots := s.slots.set i (slot.register e set) }
      fun b => B b ∨ b = ⟨set, i, slot.issued + 1⟩ where
  known b hb := by
    have hlt := (List.getElem?_eq_some_iff.1 hi).1
    rcases hb with hb | rfl
    · obtain ⟨slot', hs, hr, hl⟩ := h.known b hb
      by_cases hbi : b.slot = i
      · rw [hbi, hi] at hs
        cases hs
        refine ⟨slot.register e set, ?_, Nat.le_succ_of_le hr, ?_⟩
        · rw [hbi, List.getElem?_set_self hlt]
        · intro ha
          change slot.issued + 1 = b.registration at ha
          omega
      · refine ⟨slot', ?_, hr, hl⟩
        rw [List.getElem?_set_ne (Ne.symm hbi)]
        exact hs
    · exact ⟨slot.register e set, List.getElem?_set_self hlt, Nat.le_refl _,
        fun _ => hk.load slot.engine set⟩
  unique b b' hb hb' hslot hreg := by
    have fresh : ∀ b, B b → b.slot = i → b.registration ≠ slot.issued + 1 := by
      intro b hb hbi hr
      obtain ⟨slot', hs, hle, -⟩ := h.known b hb
      rw [hbi, hi] at hs
      cases hs
      omega
    rcases hb with hb | rfl
    · rcases hb' with hb' | rfl
      · exact h.unique b b' hb hb' hslot hreg
      · exact absurd hreg (fresh b hb hslot)
    · rcases hb' with hb' | rfl
      · exact absurd hreg.symm (fresh b' hb' hslot.symm)
      · rfl
  tables slot' hs := by
    rcases List.mem_or_eq_of_mem_set hs with hs | rfl
    · exact h.tables slot' hs
    · exact h.tables slot (List.mem_of_getElem? hi)

theorem addSlot (h : s.Sound L B) (e : Engine σ) (disk : Disk) (arch : String) :
    (s.addSlot e disk arch).2.2.1.Sound L B where
  known b hb := by
    obtain ⟨slot, hs, hr⟩ := h.known b hb
    refine ⟨slot, ?_, hr⟩
    change (s.slots ++ [_])[b.slot]? = some slot
    rw [List.getElem?_append_left (List.getElem?_eq_some_iff.1 hs).1]
    exact hs
  unique := h.unique
  tables slot hs := by
    change slot ∈ s.slots ++ [_] at hs
    rcases List.mem_append.1 hs with hs | hs
    · exact h.tables slot hs
    · rw [List.mem_singleton.1 hs]
      intro file hf
      obtain ⟨directory, -, rfl⟩ := Option.map_eq_some_iff.1 hf
      exact ⟨directory, arch, rfl⟩

theorem registerFiles (hk : e.Keeps L) (h : s.Sound L B) (disk : Disk) (set : WorkingSet) :
    (s.registerFiles e disk set).2.1.Sound L fun b =>
      B b ∨ b = (s.registerFiles e disk set).1 := by
  unfold Session.registerFiles Session.slotFor
  cases hp : s.placed? set.options.arch with
  | some p =>
    obtain ⟨i, slot⟩ := p
    exact h.registerAt hk (getElem?_of_placed? hp) set
  | none =>
    exact (h.addSlot e disk set.options.arch).registerAt hk
      (s.getElem?_addSlot e disk set.options.arch) set

theorem register (hk : e.Keeps L) (h : s.Sound L B) {disk : Disk} {paths : List String}
    {origin : Origin} {options : Options} {b : Build} {s' : Session σ} {calls : List Call}
    (hr : s.register e disk paths origin options = (.ok b, s', calls)) :
    s'.Sound L fun b' => B b' ∨ b' = b := by
  unfold Session.register at hr
  split at hr
  · cases hr
  · split at hr
    · cases hr
    · next globs hg =>
      cases hr
      exact h.registerFiles hk disk _

/-! ## Emitting -/

theorem emit (hk : e.Keeps L) (h : s.Sound L B) (w : World) {b : Build} (hb : B b) (path : String)
    (moduleName : Option String) : (s.emit d e w b path moduleName).session.Sound L B := by
  unfold Session.emit
  split
  · exact h
  · next slot hslot =>
    have hlt := (List.getElem?_eq_some_iff.1 hslot).1
    obtain ⟨slot', hs, hr, hl⟩ := h.known b hb
    rw [hslot] at hs
    cases hs
    have hstation := Desk.station_emit (d := d) (e := e) ⟨slot, s.cache, w.disk⟩
      (Origin.source w) b path moduleName
    have hloaded := Desk.loaded_emit (d := d) ⟨slot, s.cache, w.disk⟩ (Origin.source w) path
      moduleName hk hl
    dsimp only
    generalize (Desk.emit d e ⟨slot, s.cache, w.disk⟩ (Origin.source w) b path moduleName).desk = k
      at hstation hloaded ⊢
    have htable : k.slot.tableFile = slot.tableFile := by
      rcases hstation with rfl | hst
      · rfl
      · exact congrArg (·.2.1) hst
    refine ⟨fun b' hb' => ?_, h.unique, fun slot' hs' => ?_⟩
    · by_cases hbb : b'.slot = b.slot
      · refine ⟨k.slot, by rw [hbb]; exact List.getElem?_set_self hlt, ?_⟩
        obtain ⟨slot', hs', hr', hl'⟩ := h.known b' hb'
        rw [hbb, hslot] at hs'
        cases hs'
        rcases hstation with rfl | hst
        · exact ⟨hr', hl'⟩
        · have hactive : k.slot.active = b.registration := congrArg (·.2.2.1) hst
          have hissued : k.slot.issued = slot.issued := congrArg (·.2.2.2) hst
          refine ⟨by rw [hissued]; exact hr', fun ha => ?_⟩
          rw [← h.unique b b' hb hb' hbb.symm (hactive.symm.trans ha)]
          rcases hloaded with rfl | hloaded
          · exact hl hactive
          · exact hloaded
      · obtain ⟨slot', hs', hr'⟩ := h.known b' hb'
        refine ⟨slot', ?_, hr'⟩
        change (s.slots.set b.slot k.slot)[b'.slot]? = some slot'
        rw [List.getElem?_set_ne (Ne.symm hbb)]
        exact hs'
    · rcases List.mem_or_eq_of_mem_set hs' with hs' | rfl
      · exact h.tables slot' hs'
      · rw [htable]
        exact h.tables slot (List.mem_of_getElem? hslot)

theorem snippet (hk : e.Keeps L) (h : s.Sound L B) (w : World) (content : String)
    (path moduleName : Option String) (options : Options) :
    (s.snippet d e w content path moduleName options).session.Sound L B := by
  unfold Session.snippet
  dsimp only
  rcases register_cases e s w.disk [pathOfSnippet d content path options]
      (.table (.ofList [(pathOfSnippet d content path options, content)])) options with
    ⟨err, hr⟩ | ⟨b, s', calls, hr⟩
  · rw [hr]
    exact h
  · rw [hr]
    exact ((h.register hk hr).emit hk w (.inr rfl) _ _).mono fun _ hb => .inl hb

theorem bind (h : s.Sound L B) (directory : String) : (s.bind directory).2.Sound L B := by
  unfold Session.bind
  split
  · exact h
  · exact h.of_slots rfl

end Session.Sound

/-! ## Hosts -/

namespace Host

/-- A build of the session at a place has a name. -/
def Registered (h : Host σ) (i : Nat) (b : Build) : Prop :=
  ∃ name, h.builds.get? name = some (i, b)

/-- All sessions know their builds. -/
structure Sound (L : σ → WorkingSet → Prop) (h : Host σ) : Prop where
  sessions : ∀ i (s : Session σ), h.sessions[i]? = some s → s.Sound L (h.Registered i)
  places : ∀ i b, h.Registered i b → i < h.sessions.length

variable {h : Host σ} {i : Nat} {s s' : Session σ}

theorem getElem?_of_session? {name : String} (hs : h.session? name = some (i, s)) :
    h.sessions[i]? = some s := by
  unfold session? at hs
  obtain ⟨j, -, hj⟩ := Option.bind_eq_some_iff.1 hs
  obtain ⟨s', hs', he⟩ := Option.map_eq_some_iff.1 hj
  cases he
  exact hs'

theorem within_of {P : Host σ → Prop} {name : String}
    {f : Nat → Session σ → Host σ × Answer × List Call} (hn : P h)
    (hf : ∀ i s, h.sessions[i]? = some s → P (f i s).1) : P (h.within name f).1 := by
  unfold within
  split
  · exact hn
  · next hs => exact hf _ _ (getElem?_of_session? hs)

theorem Sound.new : Sound L (Host.new : Host σ) where
  sessions i s hs := by
    cases i with
    | zero => cases hs; exact (Session.Sound.new _).mono fun b ⟨name, hb⟩ => by cases hb
    | succ i => cases hs
  places := by
    rintro i b ⟨name, hb⟩
    cases hb

theorem Sound.of_world (hs : h.Sound L) (w : World) : Sound L { h with world := w } :=
  ⟨hs.sessions, hs.places⟩

theorem Sound.setSession (hs : h.Sound L) (hs' : s'.Sound L (h.Registered i)) :
    (h.setSession i s').Sound L where
  sessions j t ht := by
    by_cases hj : j = i
    · subst hj
      have hlt : j < h.sessions.length := by
        change (h.sessions.set j s')[j]? = some t at ht
        have hlt := (List.getElem?_eq_some_iff.1 ht).1
        rwa [List.length_set] at hlt
      change (h.sessions.set j s')[j]? = some t at ht
      rw [List.getElem?_set_self hlt] at ht
      cases ht
      exact hs'
    · change (h.sessions.set i s')[j]? = some t at ht
      rw [List.getElem?_set_ne (Ne.symm hj)] at ht
      exact hs.sessions j t ht
  places j b hb := by
    change j < (h.sessions.set i s').length
    rw [List.length_set]
    exact hs.places j b hb

theorem Sound.setCache (hs : h.Sound L) (hi : h.sessions[i]? = some s) (r : Cache × Disk) :
    (h.setCache i s r).Sound L := by
  have hs' : Session.Sound L { s with cache := r.1 } (h.Registered i) :=
    (hs.sessions i s hi).of_slots rfl
  exact (hs.setSession hs').of_world _

theorem Sound.openSession (hs : h.Sound L) (name : String) (cache : Cache) :
    (h.openSession name cache).Sound L where
  sessions j t ht := by
    change (h.sessions ++ [Session.new cache])[j]? = some t at ht
    rcases Nat.lt_trichotomy j h.sessions.length with hj | hj | hj
    · rw [List.getElem?_append_left hj] at ht
      exact hs.sessions j t ht
    · subst hj
      rw [List.getElem?_append_right (Nat.le_refl _), Nat.sub_self] at ht
      cases ht
      exact (Session.Sound.new cache).mono fun b hb => absurd (hs.places _ b hb) (Nat.lt_irrefl _)
    · rw [List.getElem?_eq_none (by simp; omega)] at ht
      cases ht
  places j b hb := by
    change j < (h.sessions ++ [_]).length
    rw [List.length_append]
    have := hs.places j b hb
    omega

theorem Sound.register (hk : e.Keeps L) (hs : h.Sound L) (hi : h.sessions[i]? = some s)
    (name : String) (paths : List String) (origin : Origin) (options : Options) :
    (h.register e i s name paths origin options).2.1.Sound L := by
  have hsi := hs.sessions i s hi
  unfold Host.register
  rcases s.register_cases e h.world.disk paths origin options with
    ⟨err, hr⟩ | ⟨b, s', calls, hr⟩
  · rw [hr]
    exact hs.setSession hsi
  · rw [hr]
    have hs' := hsi.register hk hr
    have registered : ∀ j b', (∃ name', (h.builds.insert name (i, b)).get? name' = some (j, b')) →
        h.Registered j b' ∨ (j = i ∧ b' = b) := by
      rintro j b' ⟨name', hb'⟩
      rw [KeyMap.get?_insert] at hb'
      split at hb'
      · cases hb'; exact .inr ⟨rfl, rfl⟩
      · exact .inl ⟨name', hb'⟩
    have hset : (h.setSession i s').Sound L := hs.setSession (hs'.mono fun _ hb => .inl hb)
    refine ⟨fun j t ht => ?_, fun j b' hb' => ?_⟩
    · by_cases hj : j = i
      · subst hj
        change (h.sessions.set j s')[j]? = some t at ht
        rw [List.getElem?_set_self (List.getElem?_eq_some_iff.1 hi).1] at ht
        cases ht
        exact hs'.mono fun b' hb' => (registered j b' hb').imp_right (·.2)
      · refine (hset.sessions j t ht).mono fun b' hb' => ?_
        rcases registered j b' hb' with hb' | ⟨hji, -⟩
        · exact hb'
        · exact absurd hji hj
    · rcases registered j b' hb' with hb' | ⟨rfl, -⟩
      · exact hset.places j b' hb'
      · change j < (h.sessions.set j s').length
        rw [List.length_set]
        exact (List.getElem?_eq_some_iff.1 hi).1

/-- **All that can happen keeps what slots know.** -/
theorem Sound.step (hk : e.Keeps L) (hs : h.Sound L) (x : Step) : (h.step d e x).1.Sound L := by
  cases x with
  | edit path content => exact hs.of_world _
  | change disk => exact hs.of_world _
  | openSession name directory => exact hs.openSession name _
  | register session build paths origin options =>
    exact within_of hs fun i s hi => hs.register hk hi build paths origin options
  | emit build path moduleName =>
    unfold Host.step
    dsimp only
    split
    · exact hs
    · next i b hb =>
      unfold Host.emit
      split
      · exact hs
      · next s hi =>
        exact (hs.setSession ((hs.sessions i s hi).emit hk h.world ⟨build, hb⟩ path
          moduleName)).of_world _
  | snippet session content path moduleName options =>
    exact within_of hs fun i s hi =>
      (hs.setSession ((hs.sessions i s hi).snippet hk h.world content path moduleName
        options)).of_world _
  | bind session directory =>
    exact within_of hs fun i s hi => hs.setSession ((hs.sessions i s hi).bind directory)
  | clear session => exact within_of hs fun i s hi => hs.setCache hi _
  | save session fp unit => exact within_of hs fun i s hi => hs.setCache hi _
  | peek session fp => exact within_of hs fun i s hi => hs.setCache hi _

/-- **In all hosts that runs lead to, sessions know their builds.** -/
theorem Reachable.sound (hk : e.Keeps L) (hr : Reachable d e h) : h.Sound L := by
  induction hr with
  | new => exact .new
  | step x _ ih => exact ih.step hk x

end Host

end CompileCache
