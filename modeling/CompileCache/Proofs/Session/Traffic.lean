import CompileCache.Proofs.Session.Tiers

/-!
# Traffic — what compilers are loaded with when they work

* `Act`: a registration or an emit, with the calls that it made to the compiler of its build.
* `lastSet`, `loader`: what a compiler was loaded with last, and for which build.
* `stateOf`: the state that a compiler gets by the calls of its acts.
* `InOrder`, `Orderly`: an act works on its own working set, and loads it only if another build was
  loaded last.
* `Session.exists_of_register`, `Session.emit_cases`: the calls of registrations and emits.
* `Session.Told`: slots know what the acts so far loaded, and their compilers have the states that
  the acts give; **`Session.Told.register`**, **`Session.Told.emit`**: they stay so, and the act is
  in order.
-/

namespace CompileCache

/-- The working set that a call loads. -/
def Call.set? : Call → Option WorkingSet
  | .load _ set => some set
  | _ => none

/-- A registration or an emit of a build in the session at a place. -/
structure Act where
  place : Nat
  build : Build
  /-- The world at that moment. -/
  world : World
  /-- The path that is emitted; nothing for a registration. -/
  emits : Option String
  /-- The calls to the compiler of the build. -/
  calls : List Call

namespace Act

/-- The compiler that gets the calls, by the places of its session and its slot. -/
def compiler (a : Act) : Nat × Nat := (a.place, a.build.slot)

/-- The working sets that an act loads. -/
def sets (a : Act) : List WorkingSet := a.calls.filterMap Call.set?

/-- An emit of a path that is in the build and has a content. -/
def Passes (a : Act) : Prop :=
  ∃ path content, a.emits = some path ∧ a.build.contains path = true ∧
    (a.build.set.origin.source a.world).content path = some content

end Act

/-- The calls that a compiler got. -/
def callsTo (l : List Act) (compiler : Nat × Nat) : List Call :=
  (l.filter fun a => a.compiler = compiler).flatMap (·.calls)

/-- The working set that some calls loaded last. -/
def lastSet (calls : List Call) : Option WorkingSet := (calls.filterMap Call.set?).getLast?

/-- The build that a compiler was loaded for last. -/
def loader (l : List Act) (compiler : Nat × Nat) : Option Build :=
  (l.filter fun a => a.compiler = compiler ∧ a.sets ≠ []).getLast?.map (·.build)

/-- The state of a compiler after a call. There is none before the call that creates it. -/
def Engine.made {σ : Type} (e : Engine σ) (view : View) : Option σ → Call → Option σ
  | _, .create arch => some (e.create arch)
  | s, c => s.map (e.after view · c)

/-- The state of the compiler after an act, which reads the contents of that moment. -/
def Act.after {σ : Type} (e : Engine σ) (s : Option σ) (a : Act) : Option σ :=
  a.calls.foldl (e.made (Origin.source a.world)) s

/-- **The state that a compiler gets by its acts.** -/
def stateOf {σ : Type} (e : Engine σ) (l : List Act) (compiler : Nat × Nat) : Option σ :=
  (l.filter fun a => a.compiler = compiler).foldl (Act.after e) none

/-- How many working sets were registered with a compiler. -/
def registrationsOf (l : List Act) (compiler : Nat × Nat) : Nat :=
  l.countP fun a => a.compiler = compiler ∧ a.emits = none

/-- **An act is in order after others**: when it asks its compiler for a result, the working set
that was loaded last is that of its build; and an emit loads it once, or not at all if the build was
the last one to be loaded. -/
structure InOrder (log : List Act) (a : Act) : Prop where
  work : ∀ cs c cs', a.calls = cs ++ c :: cs' → c.isWork = true →
    lastSet (callsTo log a.compiler ++ cs) = some a.build.set
  loads : a.Passes → a.sets =
    if (loader log a.compiler).map (·.registration) = some a.build.registration then []
    else [a.build.set]

/-- Every act is in order after those before it. -/
def Orderly (l : List Act) : Prop := ∀ pre a post, l = pre ++ a :: post → InOrder pre a

theorem orderly_nil : Orderly [] := by
  intro pre a post h
  cases pre <;> cases h

theorem Orderly.snoc {l : List Act} {a : Act} (h : Orderly l) (ha : InOrder l a) :
    Orderly (l ++ [a]) := by
  intro pre a' post hl
  rcases List.eq_nil_or_concat post with rfl | ⟨post', a'', rfl⟩
  · obtain ⟨rfl, hx⟩ := List.append_inj' hl rfl
    cases hx
    exact ha
  · rw [List.concat_eq_append, ← List.cons_append, ← List.append_assoc] at hl
    exact h pre a' post' (List.append_inj' hl rfl).1

/-! ## Loads -/

section Loads

variable {l m : List Act} {compiler : Nat × Nat}

theorem callsTo_append (l m : List Act) (compiler : Nat × Nat) :
    callsTo (l ++ m) compiler = callsTo l compiler ++ callsTo m compiler := by
  unfold callsTo
  rw [List.filter_append, List.flatMap_append]

theorem callsTo_of_ne (h : ∀ a ∈ m, a.compiler ≠ compiler) : callsTo m compiler = [] := by
  unfold callsTo
  rw [List.filter_eq_nil_iff.2 fun a ha => by simpa using h a ha]
  rfl

theorem callsTo_self (a : Act) : callsTo [a] a.compiler = a.calls := by
  simp [callsTo]

theorem lastSet_append (cs cs' : List Call) :
    lastSet (cs ++ cs') = (lastSet cs').or (lastSet cs) := by
  unfold lastSet
  rw [List.filterMap_append, List.getLast?_append]

theorem filterMap_set?_of_isWork {cs : List Call} (h : ∀ c ∈ cs, c.isWork = true) :
    cs.filterMap Call.set? = [] := by
  rw [List.filterMap_eq_nil_iff]
  intro c hc
  have hw := h c hc
  cases c with
  | load => cases hw
  | create | compile | diagnose => rfl

theorem loader_append (l m : List Act) (compiler : Nat × Nat) :
    loader (l ++ m) compiler = (loader m compiler).or (loader l compiler) := by
  unfold loader
  rw [List.filter_append, List.getLast?_append, Option.map_or]

theorem loader_of_ne (h : ∀ a ∈ m, a.compiler ≠ compiler) : loader m compiler = none := by
  unfold loader
  rw [List.filter_eq_nil_iff.2 fun a ha hc => h a ha (of_decide_eq_true hc).1]
  rfl

theorem loader_self (a : Act) :
    loader [a] a.compiler = if a.sets = [] then none else some a.build := by
  unfold loader
  by_cases h : a.sets = [] <;> simp [h]

theorem exists_of_loader {b : Build} (h : loader l compiler = some b) :
    ∃ a ∈ l, a.compiler = compiler ∧ a.build = b := by
  unfold loader at h
  obtain ⟨a, ha, hb⟩ := Option.map_eq_some_iff.1 h
  obtain ⟨hmem, hc⟩ := List.mem_filter.1 (List.mem_of_getLast? ha)
  exact ⟨a, hmem, (of_decide_eq_true hc).1, hb⟩

/-! ### States -/

theorem foldl_made {σ : Type} (e : Engine σ) (view : View) (s : σ) (calls : List Call) :
    calls.foldl (e.made view) (some s) = some (e.replay view s calls) := by
  induction calls generalizing s with
  | nil => rfl
  | cons c calls ih =>
    have hc : e.made view (some s) c = some (e.after view s c) := by cases c <;> rfl
    rw [List.foldl_cons, hc, ih]
    rfl

theorem stateOf_append_of_ne {σ : Type} (e : Engine σ) (h : ∀ a ∈ m, a.compiler ≠ compiler) :
    stateOf e (l ++ m) compiler = stateOf e l compiler := by
  unfold stateOf
  have hm : (m.filter fun a => a.compiler = compiler) = [] :=
    List.filter_eq_nil_iff.2 fun a ha => by simpa using h a ha
  rw [List.filter_append, hm, List.append_nil]

theorem stateOf_snoc {σ : Type} (e : Engine σ) (l : List Act) (a : Act) :
    stateOf e (l ++ [a]) a.compiler = a.after e (stateOf e l a.compiler) := by
  unfold stateOf
  have ha : ([a].filter fun a' => a'.compiler = a.compiler) = [a] := by simp
  rw [List.filter_append, ha, List.foldl_append]
  rfl

theorem registrationsOf_le_append (l m : List Act) (compiler : Nat × Nat) :
    registrationsOf l compiler ≤ registrationsOf (l ++ m) compiler := by
  unfold registrationsOf
  rw [List.countP_append]
  exact Nat.le_add_right _ _

theorem registrationsOf_snoc {a : Act} (h : a.emits = none) :
    registrationsOf (l ++ [a]) a.compiler = registrationsOf l a.compiler + 1 := by
  unfold registrationsOf
  rw [List.countP_append, List.countP_singleton, if_pos (by simp [h])]

/-! ### Acts in order -/

theorem inOrder_of_calls_nil {a : Act} (hcalls : a.calls = []) (hp : ¬a.Passes) :
    InOrder l a where
  work cs c cs' h _ := by
    rw [hcalls] at h
    exact absurd h.symm (List.append_ne_nil_of_right_ne_nil cs (List.cons_ne_nil c cs'))
  loads hpasses := absurd hpasses hp

theorem inOrder_of_loaded {a : Act} (hwork : ∀ c ∈ a.calls, c.isWork = true)
    (hset : lastSet (callsTo l a.compiler) = some a.build.set)
    (hloader : (loader l a.compiler).map (·.registration) = some a.build.registration) :
    InOrder l a where
  work cs c cs' h _ := by
    have hcs : ∀ c ∈ cs, c.isWork = true := by
      intro c' hc'
      refine hwork c' ?_
      rw [h]
      exact List.mem_append_left _ hc'
    rw [lastSet_append, lastSet, filterMap_set?_of_isWork hcs]
    exact hset
  loads _ := by rw [if_pos hloader, Act.sets, filterMap_set?_of_isWork hwork]

theorem inOrder_of_loads {a : Act} {arch : String} {work : List Call}
    (hcalls : a.calls = .load arch a.build.set :: work) (hwork : ∀ c ∈ work, c.isWork = true)
    (hloader : (loader l a.compiler).map (·.registration) ≠ some a.build.registration) :
    InOrder l a where
  work cs c cs' h hc := by
    rw [hcalls] at h
    cases cs with
    | nil =>
      cases h
      cases hc
    | cons c₀ cs =>
      obtain ⟨rfl, hrest⟩ := List.cons.inj h
      have hcs : ∀ c ∈ cs, c.isWork = true := by
        intro c' hc'
        refine hwork c' ?_
        rw [hrest]
        exact List.mem_append_left _ hc'
      rw [lastSet_append, lastSet, List.filterMap_cons]
      dsimp only [Call.set?]
      rw [filterMap_set?_of_isWork hcs]
      rfl
  loads _ := by
    rw [if_neg hloader, Act.sets, hcalls, List.filterMap_cons]
    dsimp only [Call.set?]
    rw [filterMap_set?_of_isWork hwork]

end Loads

/-! ## Desks -/

namespace Desk

variable {σ : Type} {d : Digest} {e : Engine σ} {view : View} {b : Build} {path content : String}

/-- **The calls of an emit**: it loads the build unless that is active, and then only asks for
results. -/
theorem exists_calls_emitContent (k : Desk σ) (view : View) (b : Build) (path content : String)
    (moduleName : Option String) : ∃ work, (∀ c ∈ work, c.isWork = true) ∧
      (k.emitContent d e view b path content moduleName).calls =
        (if k.slot.active = b.registration then [] else [.load k.slot.arch b.set]) ++ work := by
  refine ⟨_, isWork_workOf (d := d) (e := e) k view b path content moduleName, ?_⟩
  rw [calls_emitContent, Slot.activate]
  split <;> rfl

theorem active_emitContent (k : Desk σ) (view : View) (b : Build) (path content : String)
    (moduleName : Option String) :
    (k.emitContent d e view b path content moduleName).desk.slot.active = b.registration :=
  congrArg (·.2.2.1) (station_emitContent k view b path content moduleName)

end Desk

/-! ## Sessions -/

namespace Session

variable {σ : Type} {d : Digest} {e : Engine σ} {s s' : Session σ} {i : Nat} {l m : List Act}
  {a : Act} {b : Build} {calls : List Call}

theorem slotFor_cases (s : Session σ) (e : Engine σ) (disk : Disk) (arch : String) :
    ∃ j slot s' creates, s.slotFor e disk arch = (j, slot, s', creates) ∧
      s'.slots[j]? = some slot ∧ (∀ j', j' ≠ j → s'.slots[j']? = s.slots[j']?) ∧
      (creates = [] ∧ s.slots[j]? = some slot ∨
        creates = [.create arch] ∧ slot.engine = e.create arch ∧ slot.issued = 0) := by
  unfold slotFor
  cases hp : s.placed? arch with
  | some p =>
    have hslot := getElem?_of_placed? hp
    exact ⟨p.1, p.2, s, [], rfl, hslot, fun _ _ => rfl, .inl ⟨rfl, hslot⟩⟩
  | none =>
    refine ⟨_, _, _, _, rfl, s.getElem?_addSlot e disk arch, fun j' hj' => ?_, .inr ⟨rfl, rfl, rfl⟩⟩
    change (s.slots ++ [_])[j']? = _
    rcases Nat.lt_or_gt_of_ne hj' with hlt | hgt
    · rw [List.getElem?_append_left hlt]
    · rw [List.getElem?_eq_none (by simp; omega), List.getElem?_eq_none (by omega)]

/-- **A registration loads the working set of its build** into a slot that is there already, or
into a new one. -/
theorem exists_of_register {disk : Disk} {paths : List String} {origin : Origin}
    {options : Options} (h : s.register e disk paths origin options = (.ok b, s', calls)) :
    ∃ slot creates, s'.slots[b.slot]? = some (slot.register e b.set) ∧
      b.registration = slot.issued + 1 ∧ (∀ j, j ≠ b.slot → s'.slots[j]? = s.slots[j]?) ∧
      calls = creates ++ [.load slot.arch b.set] ∧
      (creates = [] ∧ s.slots[b.slot]? = some slot ∨
        ∃ arch, creates = [.create arch] ∧ slot.engine = e.create arch ∧ slot.issued = 0) := by
  unfold Session.register at h
  split at h
  · cases h
  · split at h
    · cases h
    · next globs _ =>
      generalize WorkingSet.mk (workingFiles globs paths) origin options = set at h
      obtain ⟨j, slot, s₁, creates, hfor, hslot, hothers, hmade⟩ :=
        s.slotFor_cases e disk set.options.arch
      unfold registerFiles at h
      rw [hfor] at h
      cases h
      have hlt := (List.getElem?_eq_some_iff.1 hslot).1
      refine ⟨slot, creates, List.getElem?_set_self hlt, rfl, fun k hk => ?_, rfl,
        hmade.imp_right fun hnew => ⟨_, hnew⟩⟩
      rw [← hothers k hk]
      exact List.getElem?_set_ne (Ne.symm hk)

/-- The act of an emit. -/
def emitAct (d : Digest) (e : Engine σ) (s : Session σ) (i : Nat) (w : World) (b : Build)
    (path : String) (moduleName : Option String) : Act :=
  ⟨i, b, w, some path, (s.emit d e w b path moduleName).calls⟩

/-- **An emit loads its build unless that is active**, and then only asks for results; or it is
refused at once. Its compiler gets the calls of the record. -/
theorem emit_cases (d : Digest) (e : Engine σ) (i : Nat) {slot : Slot σ}
    (hslot : s.slots[b.slot]? = some slot) (w : World) (path : String)
    (moduleName : Option String) : ∃ slot' work,
      (s.emit d e w b path moduleName).session.slots = s.slots.set b.slot slot' ∧
      slot'.engine = e.replay (Origin.source w) slot.engine (s.emit d e w b path moduleName).calls ∧
      slot'.issued = slot.issued ∧ (∀ c ∈ work, c.isWork = true) ∧
      (¬(s.emitAct d e i w b path moduleName).Passes ∧ slot'.active = slot.active ∧
          (s.emit d e w b path moduleName).calls = [] ∨
        slot'.active = b.registration ∧ (s.emit d e w b path moduleName).calls =
          (if slot.active = b.registration then [] else [.load slot.arch b.set]) ++ work) := by
  have hengine := Desk.engine_emit (d := d) (e := e) ⟨slot, s.cache, w.disk⟩ (Origin.source w) b
    path moduleName
  have hissued : ((Desk.mk slot s.cache w.disk).emit d e (Origin.source w) b path
      moduleName).desk.slot.issued = slot.issued := by
    rcases Desk.station_emit (d := d) (e := e) ⟨slot, s.cache, w.disk⟩ (Origin.source w) b path
      moduleName with hkept | hstation
    · rw [hkept]
    · exact congrArg (·.2.2.2) hstation
  unfold emitAct Session.emit
  rw [hslot]
  dsimp only
  by_cases hp : Act.Passes ⟨i, b, w, some path, []⟩
  · obtain ⟨path', content, he, hfile, hc⟩ := hp
    cases he
    rw [Desk.emit_eq hfile hc] at hengine hissued ⊢
    obtain ⟨work, hwork, hcalls⟩ := Desk.exists_calls_emitContent (d := d) (e := e)
      ⟨slot, s.cache, w.disk⟩ (Origin.source w) b path content moduleName
    exact ⟨_, work, rfl, hengine, hissued, hwork,
      .inr ⟨Desk.active_emitContent _ _ _ _ _ _, hcalls⟩⟩
  · rcases Desk.emit_eq_or (d := d) (e := e) ⟨slot, s.cache, w.disk⟩ (Origin.source w) b path
      moduleName with he | ⟨content, hfile, hc, -⟩
    · rw [he]
      exact ⟨slot, [], rfl, rfl, rfl, List.forall_mem_nil _, .inl ⟨hp, rfl, rfl⟩⟩
    · exact absurd ⟨path, content, rfl, hfile, hc⟩ hp

end Session

/-! ## What slots know -/

/-- A slot knows what some acts did to its compiler: which registration and which working set they
loaded last. The compiler has the state that the acts give, and no more numbers were issued than
working sets were registered. -/
structure Slot.Knows {σ : Type} (slot : Slot σ) (e : Engine σ) (l : List Act)
    (compiler : Nat × Nat) : Prop where
  last : ∃ b, loader l compiler = some b ∧ slot.active = b.registration ∧
    lastSet (callsTo l compiler) = some b.set
  state : stateOf e l compiler = some slot.engine
  issued : slot.issued ≤ registrationsOf l compiler

namespace Slot.Knows

variable {σ : Type} {e : Engine σ} {slot slot' : Slot σ} {l m : List Act} {a : Act}
  {compiler : Nat × Nat}

theorem other (h : slot.Knows e l compiler) (hm : ∀ a ∈ m, a.compiler ≠ compiler) :
    slot.Knows e (l ++ m) compiler where
  last := by
    rw [loader_append, loader_of_ne hm, callsTo_append, callsTo_of_ne hm, List.append_nil]
    exact h.last
  state := (stateOf_append_of_ne e hm).trans h.state
  issued := Nat.le_trans h.issued (registrationsOf_le_append l m compiler)

theorem idle (h : slot.Knows e l a.compiler) (hsets : a.sets = [])
    (hactive : slot'.active = slot.active)
    (hstate : a.after e (some slot.engine) = some slot'.engine)
    (hissued : slot'.issued = slot.issued) : slot'.Knows e (l ++ [a]) a.compiler where
  last := by
    obtain ⟨b, hloader, hlast, hset⟩ := h.last
    refine ⟨b, ?_, hactive.trans hlast, ?_⟩
    · rw [loader_append, loader_self, if_pos hsets]
      exact hloader
    · rw [callsTo_append, callsTo_self, lastSet_append, lastSet,
        show a.calls.filterMap Call.set? = [] from hsets]
      exact hset
  state := by rw [stateOf_snoc, h.state, hstate]
  issued := by
    rw [hissued]
    exact Nat.le_trans h.issued (registrationsOf_le_append l [a] a.compiler)

theorem loading (hsets : a.sets = [a.build.set]) (hactive : slot'.active = a.build.registration)
    (hstate : a.after e (stateOf e l a.compiler) = some slot'.engine)
    (hissued : slot'.issued ≤ registrationsOf (l ++ [a]) a.compiler) :
    slot'.Knows e (l ++ [a]) a.compiler where
  last := by
    refine ⟨a.build, ?_, hactive, ?_⟩
    · rw [loader_append, loader_self, hsets, if_neg (List.cons_ne_nil _ _), Option.some_or]
    · rw [callsTo_append, callsTo_self, lastSet_append, lastSet,
        show a.calls.filterMap Call.set? = [a.build.set] from hsets, List.getLast?_singleton,
        Option.some_or]
  state := (stateOf_snoc e l a).trans hstate
  issued := hissued

end Slot.Knows

namespace Session

variable {σ : Type} {d : Digest} {e : Engine σ} {s s' : Session σ} {i : Nat} {l m : List Act}
  {a : Act} {b : Build} {calls : List Call}

/-- The slots of a session know what some acts did. -/
structure Told (s : Session σ) (e : Engine σ) (i : Nat) (l : List Act) : Prop where
  sound : s.Sound (fun _ _ => True) fun b => ∃ a ∈ l, a.place = i ∧ a.build = b
  knows : ∀ j (slot : Slot σ), s.slots[j]? = some slot → slot.Knows e l (i, j)

theorem Told.other (h : s.Told e i l) (hm : ∀ a ∈ m, a.place ≠ i) : s.Told e i (l ++ m) where
  sound := h.sound.mono fun _ ⟨a, ha, hp, hb⟩ =>
    ⟨a, (List.mem_append.1 ha).resolve_right fun hma => hm a hma hp, hp, hb⟩
  knows j slot hj := (h.knows j slot hj).other fun a ha hc => hm a ha (Prod.mk.inj hc).1

theorem Told.of_slots (h : s.Told e i l) (hs : s'.slots = s.slots) : s'.Told e i l where
  sound := h.sound.of_slots hs
  knows := by rw [hs]; exact h.knows

theorem told_new (cache : Cache) (hl : ∀ a ∈ l, a.place ≠ i) :
    (Session.new cache : Session σ).Told e i l where
  sound := (Sound.new cache).mono fun _ ⟨a, ha, hp, _⟩ => hl a ha hp
  knows j slot hj := by cases hj

theorem Told.snoc (h : s.Told e i l) (hplace : a.place = i)
    (hsound : s'.Sound (fun _ _ => True) fun b =>
      (∃ a ∈ l, a.place = i ∧ a.build = b) ∨ b = a.build)
    (hothers : ∀ j, j ≠ a.build.slot → s'.slots[j]? = s.slots[j]?) {slot' : Slot σ}
    (hslot' : s'.slots[a.build.slot]? = some slot')
    (hknows : slot'.Knows e (l ++ [a]) a.compiler) : s'.Told e i (l ++ [a]) where
  sound := hsound.mono fun b ⟨a', ha', hp, hb⟩ => by
    rcases List.mem_append.1 ha' with ha' | ha'
    · exact .inl ⟨a', ha', hp, hb⟩
    · rw [List.mem_singleton.1 ha'] at hb
      exact .inr hb.symm
  knows j slot hj := by
    by_cases hc : j = a.build.slot
    · subst hc hplace
      cases hslot'.symm.trans hj
      exact hknows
    · rw [hothers j hc] at hj
      refine (h.knows j slot hj).other fun a' ha' he => hc ?_
      rw [List.mem_singleton.1 ha'] at he
      exact (Prod.mk.inj he).2.symm

/-- **A registration is in order**, and is told to its slot. -/
theorem Told.register (h : s.Told e i l) (w : World) {paths : List String} {origin : Origin}
    {options : Options} (hr : s.register e w.disk paths origin options = (.ok b, s', calls)) :
    s'.Told e i (l ++ [⟨i, b, w, none, calls⟩]) ∧ InOrder l ⟨i, b, w, none, calls⟩ := by
  obtain ⟨slot, creates, hslot, hreg, hothers, hcalls, hmade⟩ := exists_of_register hr
  have hcreates : ∀ c ∈ creates, ∃ arch, c = .create arch := by
    rcases hmade with ⟨rfl, -⟩ | ⟨arch, rfl, -⟩
    · exact List.forall_mem_nil _
    · exact fun c hc => ⟨arch, List.mem_singleton.1 hc⟩
  have hsets : calls.filterMap Call.set? = [b.set] := by
    rw [hcalls, List.filterMap_append, List.filterMap_eq_nil_iff.2 fun c hc => ?_]
    · rfl
    · obtain ⟨arch, rfl⟩ := hcreates c hc
      rfl
  -- a slot that was there had the state of the acts so far; a new one has it from being created
  have hmoment : creates.foldl (e.made (Origin.source w)) (stateOf e l (i, b.slot)) =
      some slot.engine ∧ slot.issued ≤ registrationsOf l (i, b.slot) := by
    rcases hmade with ⟨rfl, hold⟩ | ⟨arch, rfl, hnew, hissued⟩
    · exact ⟨(h.knows b.slot slot hold).state, (h.knows b.slot slot hold).issued⟩
    · rw [hissued, hnew]
      exact ⟨rfl, Nat.zero_le _⟩
  obtain ⟨hstate, hissued⟩ := hmoment
  refine ⟨h.snoc rfl (h.sound.register e.keeps_true hr) hothers hslot
    (.loading hsets hreg.symm ?_ ?_), ?_, ?_⟩
  · change calls.foldl _ (stateOf e l (i, b.slot)) = _
    rw [hcalls, List.foldl_append, hstate]
    rfl
  · refine Nat.le_trans (Nat.succ_le_succ hissued) (Nat.le_of_eq ?_)
    exact (registrationsOf_snoc (a := ⟨i, b, w, none, calls⟩) rfl).symm
  · intro cs c cs' hsplit hc
    have hmem : c ∈ creates ++ [.load slot.arch b.set] := by
      rw [← hcalls, show calls = cs ++ c :: cs' from hsplit]
      exact List.mem_append_right _ List.mem_cons_self
    rcases List.mem_append.1 hmem with hmem | hmem
    · obtain ⟨arch, rfl⟩ := hcreates c hmem
      cases hc
    · rw [List.mem_singleton.1 hmem] at hc
      cases hc
  · rintro ⟨path, content, he, -⟩
    cases he

/-- The build that a slot was loaded for last has the working set of every build with the same
registration. -/
theorem Told.set_eq (h : s.Told e i l) (hb : ∃ a ∈ l, a.place = i ∧ a.build = b) {b₀ : Build}
    (hloader : loader l (i, b.slot) = some b₀) (hr : b₀.registration = b.registration) :
    b₀.set = b.set := by
  obtain ⟨a₀, ha₀, hc, rfl⟩ := exists_of_loader hloader
  exact h.sound.unique _ b ⟨a₀, ha₀, (Prod.mk.inj hc).1, rfl⟩ hb (Prod.mk.inj hc).2 hr

/-- No build has a number beyond the working sets that were registered with its compiler. -/
theorem Told.registration_le (h : s.Told e i l) (ha : a ∈ l) (hp : a.place = i) :
    a.build.registration ≤ registrationsOf l (i, a.build.slot) := by
  obtain ⟨slot, hslot, hle, -⟩ := h.sound.known a.build ⟨a, ha, hp, rfl⟩
  exact Nat.le_trans hle (h.knows _ slot hslot).issued

/-- **An emit of a known build is in order**, and is told to its slot. -/
theorem Told.emit (h : s.Told e i l) (hb : ∃ a ∈ l, a.place = i ∧ a.build = b) (w : World)
    (path : String) (moduleName : Option String) :
    (s.emit d e w b path moduleName).session.Told e i
        (l ++ [s.emitAct d e i w b path moduleName]) ∧
      InOrder l (s.emitAct d e i w b path moduleName) := by
  obtain ⟨slot, hslot, -, -⟩ := h.sound.known b hb
  have hknows := h.knows b.slot slot hslot
  obtain ⟨b₀, hloader, hactive, hset⟩ := hknows.last
  obtain ⟨slot', work, hslots, hengine, hissued, hwork, hcases⟩ :=
    emit_cases d e i hslot w path moduleName
  have hsound := (h.sound.emit (d := d) e.keeps_true w hb path moduleName).mono (C := fun b' =>
    (∃ a ∈ l, a.place = i ∧ a.build = b') ∨ b' = b) fun b' hb' => hb'.elim id fun he => he ▸ hb
  have hothers : ∀ j, j ≠ b.slot →
      (s.emit d e w b path moduleName).session.slots[j]? = s.slots[j]? := by
    intro j hj
    rw [hslots]
    exact List.getElem?_set_ne (Ne.symm hj)
  have hself : (s.emit d e w b path moduleName).session.slots[b.slot]? = some slot' := by
    rw [hslots]
    exact List.getElem?_set_self (List.getElem?_eq_some_iff.1 hslot).1
  have hstate : (s.emitAct d e i w b path moduleName).after e (some slot.engine) =
      some slot'.engine := by
    rw [hengine]
    exact foldl_made e _ _ _
  change slot.Knows e l (s.emitAct d e i w b path moduleName).compiler at hknows
  change loader l (s.emitAct d e i w b path moduleName).compiler = some b₀ at hloader
  -- refused at once; else the build is active and nothing is loaded; else it is loaded first
  rcases hcases with ⟨hp, hkept, hcalls⟩ | ⟨hnew, hcalls⟩
  · change (s.emitAct d e i w b path moduleName).calls = [] at hcalls
    refine ⟨h.snoc rfl hsound hothers hself (hknows.idle ?_ hkept hstate hissued),
      inOrder_of_calls_nil hcalls hp⟩
    rw [Act.sets, hcalls]
    rfl
  change (s.emitAct d e i w b path moduleName).calls = _ at hcalls
  by_cases hact : slot.active = b.registration
  · have hsame := h.set_eq hb hloader (hactive.symm.trans hact)
    rw [if_pos hact, List.nil_append] at hcalls
    rw [← hcalls] at hwork
    refine ⟨h.snoc rfl hsound hothers hself (hknows.idle (filterMap_set?_of_isWork hwork)
      (hnew.trans hact.symm) hstate hissued),
      inOrder_of_loaded hwork (hset.trans (congrArg some hsame)) ?_⟩
    rw [hloader, Option.map_some, ← hactive, hact]
    rfl
  · rw [if_neg hact] at hcalls
    have hsets : (s.emitAct d e i w b path moduleName).sets = [b.set] := by
      rw [Act.sets, hcalls, List.filterMap_append, filterMap_set?_of_isWork hwork]
      rfl
    refine ⟨h.snoc rfl hsound hothers hself (.loading hsets hnew ?_ ?_),
      inOrder_of_loads hcalls hwork fun he => hact ?_⟩
    · rw [hknows.state, hstate]
    · rw [hissued]
      exact Nat.le_trans hknows.issued (registrationsOf_le_append l _ _)
    · rw [hloader] at he
      rw [hactive]
      exact Option.some.inj he

end Session

end CompileCache
