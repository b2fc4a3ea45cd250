import CompileCache.Proofs.Run.Log
import CompileCache.Proofs.Session.Traffic

/-!
# History — the acts of a run

* `Host.acts`, `Host.history`: the acts of a step and of a run; **`Host.calls_run`**: a run makes
  their calls, and no others.
* `Host.Told`: the slots of all sessions know what the acts so far did; **`Host.Told.step`**.
* **`Host.orderly_history`**: all acts of a run are in order, and each compiler has the state that
  its acts give.
* `Host.counters_le`: no number is counted beyond the length of the run.
-/

namespace CompileCache

namespace Host

variable {σ : Type} (d : Digest) (e : Engine σ)

/-- The acts of a step: of a snippet first its registration, then its emit. -/
def acts (h : Host σ) : Step → List Act
  | .register session _ paths origin options =>
    match h.session? session with
    | none => []
    | some (i, s) =>
      match s.register e h.world.disk paths origin options with
      | (.error _, _, _) => []
      | (.ok b, _, calls) => [⟨i, b, h.world, none, calls⟩]
  | .emit build path moduleName =>
    match h.builds.get? build with
    | none => []
    | some (i, b) =>
      match h.sessions[i]? with
      | none => []
      | some s => [s.emitAct d e i h.world b path moduleName]
  | .snippet session content path moduleName options =>
    match h.session? session with
    | none => []
    | some (i, s) =>
      match s.registerSnippet d e h.world.disk content path options with
      | (.error _, _, _) => []
      | (.ok b, s', calls) =>
        [⟨i, b, h.world, none, calls⟩, s'.emitAct d e i h.world b
          (Session.pathOfSnippet d content path options) moduleName]
  | .edit .. | .change _ | .openSession .. | .bind .. | .clear _ | .save .. | .peek .. => []

/-- The acts of a run. -/
def history (h : Host σ) : List Step → List Act
  | [] => []
  | x :: rest => h.acts d e x ++ (h.step d e x).1.history rest

variable {d e} {h : Host σ} {i : Nat} {s s' : Session σ} {l m : List Act}

theorem calls_step (h : Host σ) (x : Step) :
    (h.step d e x).2.2 = (h.acts d e x).flatMap (·.calls) := by
  cases x with
  | edit | change | openSession => rfl
  | bind session _ | clear session | save session _ _ | peek session _ =>
    unfold step within
    dsimp only
    cases h.session? session <;> rfl
  | register session build paths origin options =>
    unfold step within acts Host.register
    dsimp only
    cases h.session? session with
    | none => rfl
    | some p =>
      obtain ⟨i, s⟩ := p
      dsimp only
      rcases s.register_cases e h.world.disk paths origin options with
        ⟨err, hr⟩ | ⟨b, s', calls, hr⟩
      · rw [hr]
        rfl
      · rw [hr]
        exact (List.append_nil calls).symm
  | emit build path moduleName =>
    unfold step acts Host.emit
    dsimp only
    cases h.builds.get? build with
    | none => rfl
    | some p =>
      dsimp only
      cases h.sessions[p.1]? with
      | none => rfl
      | some s => exact (List.append_nil _).symm
  | snippet session content path moduleName options =>
    unfold step within acts Host.snippet
    dsimp only
    cases h.session? session with
    | none => rfl
    | some p =>
      obtain ⟨i, s⟩ := p
      dsimp only
      rcases s.snippet_cases d e h.world content path moduleName options with
        ⟨err, hr, hsnippet⟩ | ⟨b, s', calls, hr, hsnippet⟩
      · rw [hr, hsnippet]
        rfl
      · rw [hr, hsnippet]
        exact congrArg (calls ++ ·) (List.append_nil _).symm

/-- **A run makes the calls of its acts, and no others.** -/
theorem calls_run (h : Host σ) (l : List Step) :
    (h.run d e l).2.flatMap (·.2) = (h.history d e l).flatMap (·.calls) := by
  induction l generalizing h with
  | nil => rfl
  | cons x l ih =>
    unfold run history
    dsimp only
    rw [List.flatMap_cons, List.flatMap_append, ih, ← calls_step]

/-- Sessions know what some acts did, and builds come from these acts. -/
structure Told (h : Host σ) (e : Engine σ) (l : List Act) : Prop where
  sessions : ∀ i (s : Session σ), h.sessions[i]? = some s → s.Told e i l
  places : ∀ a ∈ l, a.place < h.sessions.length
  names : ∀ i b, h.Registered i b → ∃ a ∈ l, a.place = i ∧ a.build = b

theorem told_new : (Host.new : Host σ).Told e [] where
  sessions i s hs := by
    cases i with
    | zero => cases hs; exact Session.told_new _ fun a ha => absurd ha List.not_mem_nil
    | succ i => cases hs
  places a ha := absurd ha List.not_mem_nil
  names := by
    rintro i b ⟨name, hb⟩
    cases hb

theorem Told.of_world (ht : h.Told e l) (w : World) : Told { h with world := w } e l :=
  ⟨ht.sessions, ht.places, ht.names⟩

theorem Told.setSession (ht : h.Told e l) (hi : h.sessions[i]? = some s)
    (hm : ∀ a ∈ m, a.place = i) (hs' : s'.Told e i (l ++ m)) :
    (h.setSession i s').Told e (l ++ m) where
  sessions j t hj := by
    change (h.sessions.set i s')[j]? = some t at hj
    by_cases hji : j = i
    · subst hji
      rw [List.getElem?_set_self (List.getElem?_eq_some_iff.1 hi).1] at hj
      cases hj
      exact hs'
    · rw [List.getElem?_set_ne (Ne.symm hji)] at hj
      exact (ht.sessions j t hj).other fun a ha hp => hji (hp.symm.trans (hm a ha))
  places a ha := by
    change a.place < (h.sessions.set i s').length
    rw [List.length_set]
    rcases List.mem_append.1 ha with ha | ha
    · exact ht.places a ha
    · rw [hm a ha]
      exact (List.getElem?_eq_some_iff.1 hi).1
  names j b hb := by
    obtain ⟨a, ha, hab⟩ := ht.names j b hb
    exact ⟨a, List.mem_append_left m ha, hab⟩

theorem Told.setSession_of_slots (ht : h.Told e l) (hi : h.sessions[i]? = some s)
    (hs : s'.slots = s.slots) : (h.setSession i s').Told e l := by
  have hs' : s'.Told e i (l ++ []) := by
    rw [List.append_nil]
    exact (ht.sessions i s hi).of_slots hs
  have hset := ht.setSession hi (fun a ha => absurd ha List.not_mem_nil) hs'
  rwa [List.append_nil] at hset

theorem Told.setCache (ht : h.Told e l) (hi : h.sessions[i]? = some s) (r : Cache × Disk) :
    (h.setCache i s r).Told e l :=
  (ht.setSession_of_slots hi
    (show ({ s with cache := r.1 } : Session σ).slots = s.slots from rfl)).of_world _

theorem Told.openSession (ht : h.Told e l) (name : String) (cache : Cache) :
    (h.openSession name cache).Told e l where
  sessions j t hj := by
    change (h.sessions ++ [Session.new cache])[j]? = some t at hj
    rcases Nat.lt_trichotomy j h.sessions.length with hlt | heq | hgt
    · rw [List.getElem?_append_left hlt] at hj
      exact ht.sessions j t hj
    · subst heq
      rw [List.getElem?_append_right (Nat.le_refl _), Nat.sub_self] at hj
      cases hj
      exact Session.told_new cache fun a ha => Nat.ne_of_lt (ht.places a ha)
    · rw [List.getElem?_eq_none (by simp; omega)] at hj
      cases hj
  places a ha := by
    change a.place < (h.sessions ++ [_]).length
    rw [List.length_append]
    exact Nat.lt_add_right 1 (ht.places a ha)
  names := ht.names

theorem Told.register (ht : h.Told e l) (ho : Orderly l) {session build : String}
    {paths : List String} {origin : Origin} {options : Options} :
    (h.step d e (.register session build paths origin options)).1.Told
        e (l ++ h.acts d e (.register session build paths origin options)) ∧
      Orderly (l ++ h.acts d e (.register session build paths origin options)) := by
  unfold step within acts
  dsimp only
  cases hs : h.session? session with
  | none => exact ⟨by rwa [List.append_nil], by rwa [List.append_nil]⟩
  | some p =>
    obtain ⟨i, s⟩ := p
    have hi := getElem?_of_session? hs
    unfold Host.register
    dsimp only
    rcases s.register_cases e h.world.disk paths origin options with
      ⟨err, hr⟩ | ⟨b, s', calls, hr⟩
    · rw [hr]
      dsimp only
      rw [List.append_nil]
      exact ⟨ht.setSession_of_slots hi rfl, ho⟩
    · rw [hr]
      obtain ⟨hs', horder⟩ := (ht.sessions i s hi).register h.world hr
      have hset := ht.setSession hi (fun a ha => by rw [List.mem_singleton.1 ha]) hs'
      refine ⟨⟨hset.sessions, hset.places, fun j b' ⟨name, hb⟩ => ?_⟩, ho.snoc horder⟩
      rw [KeyMap.get?_insert] at hb
      split at hb
      · cases hb
        exact ⟨_, List.mem_append_right l List.mem_cons_self, rfl, rfl⟩
      · exact hset.names j b' ⟨name, hb⟩

theorem Told.emit (ht : h.Told e l) (ho : Orderly l) {build path : String}
    {moduleName : Option String} :
    (h.step d e (.emit build path moduleName)).1.Told
        e (l ++ h.acts d e (.emit build path moduleName)) ∧
      Orderly (l ++ h.acts d e (.emit build path moduleName)) := by
  unfold step acts
  dsimp only
  cases hb : h.builds.get? build with
  | none => exact ⟨by rwa [List.append_nil], by rwa [List.append_nil]⟩
  | some p =>
    obtain ⟨i, b⟩ := p
    unfold Host.emit
    dsimp only
    cases hi : h.sessions[i]? with
    | none => exact ⟨by rwa [List.append_nil], by rwa [List.append_nil]⟩
    | some s =>
      obtain ⟨hs', horder⟩ := (ht.sessions i s hi).emit (d := d) (e := e) (ht.names i b ⟨build, hb⟩)
        h.world path moduleName
      have hset := ht.setSession hi (fun a ha => by rw [List.mem_singleton.1 ha]; rfl) hs'
      exact ⟨hset.of_world _, ho.snoc horder⟩

theorem Told.snippet (ht : h.Told e l) (ho : Orderly l) {session content : String}
    {path moduleName : Option String} {options : Options} :
    (h.step d e (.snippet session content path moduleName options)).1.Told
        e (l ++ h.acts d e (.snippet session content path moduleName options)) ∧
      Orderly (l ++ h.acts d e (.snippet session content path moduleName options)) := by
  unfold step within acts
  dsimp only
  cases hs : h.session? session with
  | none => exact ⟨by rwa [List.append_nil], by rwa [List.append_nil]⟩
  | some p =>
    obtain ⟨i, s⟩ := p
    have hi := getElem?_of_session? hs
    unfold Host.snippet
    dsimp only
    rcases s.snippet_cases d e h.world content path moduleName options with
      ⟨err, hr, hsnippet⟩ | ⟨b, s', calls, hr, hsnippet⟩
    · rw [hr, hsnippet, List.append_nil]
      have hset := ht.setSession_of_slots hi rfl
      exact ⟨hset.of_world _, ho⟩
    · rw [hr, hsnippet]
      obtain ⟨hs₁, horder₁⟩ := (ht.sessions i s hi).register h.world hr
      have hb : ∃ a ∈ l ++ [⟨i, b, h.world, none, calls⟩], a.place = i ∧ a.build = b :=
        ⟨_, List.mem_append_right l List.mem_cons_self, rfl, rfl⟩
      obtain ⟨hs₂, horder₂⟩ := hs₁.emit (d := d) (e := e) hb h.world
        (Session.pathOfSnippet d content path options) moduleName
      have ho₂ := (ho.snoc horder₁).snoc horder₂
      rw [List.append_assoc] at hs₂ ho₂
      have hset := ht.setSession hi (fun a ha => ?_) hs₂
      · exact ⟨hset.of_world _, ho₂⟩
      · rcases List.mem_cons.1 ha with rfl | ha
        · rfl
        · rw [List.mem_singleton.1 ha]
          rfl

/-- **Every step keeps what slots know, and its acts are in order.** -/
theorem Told.step (ht : h.Told e l) (ho : Orderly l) (x : Step) :
    (h.step d e x).1.Told e (l ++ h.acts d e x) ∧ Orderly (l ++ h.acts d e x) := by
  have hquiet : ∀ {h' : Host σ}, h'.Told e l → h'.Told e (l ++ []) ∧ Orderly (l ++ []) := by
    intro h' ht'
    rw [List.append_nil]
    exact ⟨ht', ho⟩
  cases x with
  | edit path content => exact hquiet (ht.of_world _)
  | change disk => exact hquiet (ht.of_world _)
  | openSession name directory => exact hquiet (ht.openSession name _)
  | register session build paths origin options => exact ht.register ho
  | emit build path moduleName => exact ht.emit ho
  | snippet session content path moduleName options => exact ht.snippet ho
  | bind session directory =>
    refine hquiet (within_of (P := (·.Told e l)) ht fun i s hi => ht.setSession_of_slots hi ?_)
    change (s.bind directory).2.slots = s.slots
    unfold Session.bind
    split <;> rfl
  | clear session | save session _ _ | peek session _ =>
    exact hquiet (within_of (P := (·.Told e l)) ht fun i s hi => ht.setCache hi _)

theorem Told.run (ht : h.Told e l) (ho : Orderly l) (xs : List Step) :
    (h.run d e xs).1.Told e (l ++ h.history d e xs) ∧ Orderly (l ++ h.history d e xs) := by
  induction xs generalizing h l with
  | nil =>
    rw [history, List.append_nil]
    exact ⟨ht, ho⟩
  | cons x xs ih =>
    obtain ⟨ht', ho'⟩ := ht.step (d := d) (e := e) ho x
    rw [history, ← List.append_assoc]
    exact ih ht' ho'

/-- **Compilers always work on the right working set**, for any compiler and in every run: all acts
are in order, the run makes their calls and no others, and in the end each compiler has the state
that its acts give. -/
theorem orderly_history (d : Digest) (e : Engine σ) (xs : List Step) :
    Orderly (new.history d e xs) ∧
      ((new : Host σ).run d e xs).2.flatMap (·.2) = (new.history d e xs).flatMap (·.calls) ∧
      ∀ (i : Nat) (s : Session σ) (j : Nat) (slot : Slot σ),
        ((new : Host σ).run d e xs).1.sessions[i]? = some s → s.slots[j]? = some slot →
        stateOf e (new.history d e xs) (i, j) = some slot.engine := by
  obtain ⟨ht, ho⟩ := (told_new (e := e)).run (d := d) orderly_nil xs
  exact ⟨ho, calls_run new xs, fun i s j slot hs hslot =>
    ((ht.sessions i s hs).knows j slot hslot).state⟩

/-- Two builds share a compiler: an emit loads its build if the other one was loaded last. -/
example :
    (new.history (.brief usualTail) sameCompiler
      [.register "" "m" ["a.ts"] (.table (.ofList [("a.ts", "x")])) {},
        .register "" "n" ["a.ts"] (.table (.ofList [("a.ts", "y")])) {},
        .emit "m" "a.ts" none, .emit "m" "a.ts" none, .emit "n" "a.ts" none]).map (·.sets.length) =
      [1, 1, 1, 0, 1] := by decide +kernel

/-! ## Counters -/

theorem registrationsOf_acts_le (d : Digest) (e : Engine σ) (h : Host σ) (x : Step)
    (compiler : Nat × Nat) : registrationsOf (h.acts d e x) compiler ≤ 1 := by
  have hone : ∀ a : Act, registrationsOf [a] compiler ≤ 1 := fun a => List.countP_le_length
  cases x with
  | register session build paths origin options =>
    unfold acts
    dsimp only
    split
    · exact Nat.zero_le 1
    · split
      · exact Nat.zero_le 1
      · exact hone _
  | emit build path moduleName =>
    unfold acts
    dsimp only
    split
    · exact Nat.zero_le 1
    · split
      · exact Nat.zero_le 1
      · exact hone _
  | snippet session content path moduleName options =>
    unfold acts
    dsimp only
    split
    · exact Nat.zero_le 1
    · split
      · exact Nat.zero_le 1
      · -- the emit behind the registration is none
        unfold registrationsOf
        rw [List.countP_cons, List.countP_singleton, if_neg (by simp [Session.emitAct]),
          Nat.zero_add]
        split <;> omega
  | edit | change | openSession | bind | clear | save | peek => exact Nat.zero_le 1

theorem registrationsOf_history_le (d : Digest) (e : Engine σ) (h : Host σ) (xs : List Step)
    (compiler : Nat × Nat) : registrationsOf (h.history d e xs) compiler ≤ xs.length := by
  induction xs generalizing h with
  | nil => exact Nat.le_refl 0
  | cons x xs ih =>
    have hx := registrationsOf_acts_le d e h x compiler
    have hxs := ih (h.step d e x).1
    unfold history
    unfold registrationsOf at hx hxs ⊢
    rw [List.countP_append, List.length_cons]
    omega

/-- **No number is counted beyond the length of the run**: a counter of 64 bits does not overflow
in any run of fewer than 2⁶⁴ steps. -/
theorem counters_le (d : Digest) (e : Engine σ) (xs : List Step) :
    (∀ (i : Nat) (s : Session σ), ((new : Host σ).run d e xs).1.sessions[i]? = some s →
      ∀ slot ∈ s.slots, slot.issued ≤ xs.length ∧ slot.active ≤ xs.length) ∧
      ∀ i b, ((new : Host σ).run d e xs).1.Registered i b → b.registration ≤ xs.length := by
  obtain ⟨ht, -⟩ := (told_new (e := e)).run (d := d) orderly_nil xs
  have hcount := registrationsOf_history_le d e new xs
  refine ⟨fun i s hs slot hslot => ?_, fun i b hb => ?_⟩
  · obtain ⟨j, hj⟩ := List.mem_iff_getElem?.1 hslot
    have hknows := (ht.sessions i s hs).knows j slot hj
    obtain ⟨b, hloader, hactive, -⟩ := hknows.last
    obtain ⟨a, ha, hc, rfl⟩ := exists_of_loader hloader
    have hreg := (ht.sessions i s hs).registration_le ha (Prod.mk.inj hc).1
    exact ⟨Nat.le_trans hknows.issued (hcount _), hactive ▸ Nat.le_trans hreg (hcount _)⟩
  · obtain ⟨a, ha, hplace, rfl⟩ := ht.names i b hb
    have hs := List.getElem?_eq_getElem (hplace ▸ ht.places a ha)
    exact Nat.le_trans ((ht.sessions i _ hs).registration_le ha hplace) (hcount _)

end Host

end CompileCache
