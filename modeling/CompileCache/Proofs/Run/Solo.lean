import CompileCache.Proofs.Run.Progress
import CompileCache.Proofs.Session.Kept

/-!
# Solo — runs of one session on a cache directory

* `Host.Solo`: the steps of such a run: contents and files change, but not those of the cache, and
  the session registers, emits and forgets.
* `Host.Flawless`: a step whose files are written, and at which the compiler does not fail.
* `Host.Along`: what holds of each step of a run.
* **`Host.builds_run`**: the builds of a run are those that were registered last.
* `Host.Alone`, **`Host.Alone.run`**: a flawless run leaves nothing in the session that is not in
  its files.
-/

namespace CompileCache

variable {σ : Type}

/-- Whether a step registers a working set. -/
def Step.isRegister : Step → Bool
  | .register .. => true
  | _ => false

/-- The working set that a step registers for a build of this name. -/
def Step.set? (m : String) : Step → Option WorkingSet
  | .register _ build paths origin options =>
    if build = m then (WorkingSet.of? paths origin options).toOption else none
  | _ => none

/-- The working set that was registered last for a build of this name. -/
def lastSet? (m : String) : List Step → Option WorkingSet
  | [] => none
  | x :: l => (lastSet? m l).or (x.set? m)

theorem lastSet?_filter (m : String) (l : List Step) :
    lastSet? m (l.filter Step.isRegister) = lastSet? m l := by
  induction l with
  | nil => rfl
  | cons x l ih =>
    cases x with
    | register =>
      rw [List.filter_cons_of_pos rfl, lastSet?, lastSet?, ih]
    | _ =>
      rw [List.filter_cons_of_neg Bool.false_ne_true, ih, lastSet?]
      exact (Option.or_none ..).symm

theorem World.disk_edit (w : World) (path : String) (content : Option String) :
    (w.edit path content).disk = w.disk := by cases content <;> rfl

namespace Host

section Definitions

variable (d : Digest) (e : Engine σ)

/-- What holds of each step of a run, at the host to which it happens. -/
def Along (P : Host σ → Step → Prop) (h : Host σ) : List Step → Prop
  | [] => True
  | x :: l => P h x ∧ Along P (h.step d e x).1 l

/-- A step of the session under a name: others may change contents and files, but not those of the
cache directory. -/
def OfSession (name directory : String) (h : Host σ) : Step → Prop
  | .change disk => disk.Orderly directory ∧ h.world.disk.Agrees disk directory
  | .register session .. | .snippet session .. | .clear session => session = name
  | .edit .. | .emit .. => True
  | .openSession .. | .bind .. | .save .. | .peek .. => False

/-- A step of the session under a name. The fingerprint that it asks for is proper. -/
structure Solo (K : ByteArray → Prop) (name directory : String) (h : Host σ) (x : Step) : Prop where
  ofSession : h.OfSession name directory x
  proper : ∀ q, h.request? d e x = some q → ∀ fp,
    q.build.fingerprint? d (q.build.set.origin.source h.world) (q.path, q.moduleName) = some fp →
    fp.Proper d K

/-- The files of a step are written. -/
def Writes (h : Host σ) : Step → Prop
  | .emit build path moduleName => ∀ i b s, h.builds.get? build = some (i, b) →
    h.sessions[i]? = some s → s.Writes d e h.world b path moduleName
  | .snippet session content path moduleName options => ∀ i s b s' calls,
    h.session? session = some (i, s) →
    s.registerSnippet d e h.world.disk content path options = (.ok b, s', calls) →
    s'.Writes d e h.world b (Session.pathOfSnippet d content path options) moduleName
  | _ => True

/-- A step whose files are written, and at which the compiler does not fail. -/
structure Flawless (h : Host σ) (x : Step) : Prop where
  writes : h.Writes d e x
  answers : ∀ err, (h.step d e x).2.1 ≠ .emitted (.error (.engine err))

end Definitions

/-- The host with another session at a place, another disk and other builds. -/
def next (h : Host σ) (i : Nat) (s : Session σ) (disk : Disk) (builds : KeyMap (Nat × Build)) :
    Host σ :=
  { h.setSession i s with world := { h.world with disk }, builds }

variable {d : Digest} {e : Engine σ} {L : σ → WorkingSet → Prop} {K : ByteArray → Prop}
  {h h' : Host σ} {i : Nat}
  {s : Session σ} {name directory : String} {l : List Step} {x : Step}

theorem session?_next (hs : h.session? name = some (i, s)) (s₁ : Session σ) (disk : Disk)
    (builds : KeyMap (Nat × Build)) : (h.next i s₁ disk builds).session? name = some (i, s₁) := by
  have hi := getElem?_of_session? hs
  unfold session? at hs ⊢
  obtain ⟨j, hj, hm⟩ := Option.bind_eq_some_iff.1 hs
  obtain ⟨s', -, he⟩ := Option.map_eq_some_iff.1 hm
  cases he
  change (h.places.get? name).bind _ = _
  rw [hj, Option.bind_some]
  change ((h.sessions.set i s₁)[i]?).map _ = _
  rw [List.getElem?_set_self (List.getElem?_eq_some_iff.1 hi).1]
  rfl

theorem exists_session?_setSession (hs : h.session? name = some (i, s)) (j : Nat)
    (t : Session σ) : ∃ s', (h.setSession j t).session? name = some (i, s') := by
  by_cases hj : j = i
  · subst hj
    exact ⟨t, session?_next hs t h.world.disk h.builds⟩
  · refine ⟨s, ?_⟩
    unfold session? at hs ⊢
    obtain ⟨i', hi', hm⟩ := Option.bind_eq_some_iff.1 hs
    obtain ⟨s', hs', he⟩ := Option.map_eq_some_iff.1 hm
    cases he
    change (h.places.get? name).bind _ = _
    rw [hi', Option.bind_some]
    change ((h.sessions.set j t)[i]?).map _ = _
    rw [List.getElem?_set_ne hj, hs']
    rfl

/-! ## Steps of a session -/

theorem step_emit_of_none {build : String} (hb : h.builds.get? build = none) (path : String)
    (moduleName : Option String) :
    h.step d e (.emit build path moduleName) = (h, .noBuild, []) := by
  unfold step
  dsimp only
  rw [hb]

section Steps

variable (hs : h.session? name = some (i, s))
include hs

theorem step_register (build : String) (paths : List String) (origin : Origin)
    (options : Options) : (h.step d e (.register name build paths origin options)) =
      match WorkingSet.of? paths origin options with
      | .error err => (h.next i s h.world.disk h.builds, .registered (.error err), [])
      | .ok set =>
        (h.next i (s.registerFiles e h.world.disk set).2.1 h.world.disk
          (h.builds.insert build (i, (s.registerFiles e h.world.disk set).1)),
        .registered (.ok (s.registerFiles e h.world.disk set).1),
        (s.registerFiles e h.world.disk set).2.2) := by
  unfold step within Host.register
  dsimp only
  rw [hs]
  dsimp only
  rw [s.register_eq]
  cases WorkingSet.of? paths origin options <;> rfl

theorem step_snippet (content : String) (path moduleName : Option String) (options : Options) :
    (h.step d e (.snippet name content path moduleName options)) =
      (h.next i (s.snippet d e h.world content path moduleName options).session
          (s.snippet d e h.world content path moduleName options).disk h.builds,
        .emitted (s.snippet d e h.world content path moduleName options).answer,
        (s.snippet d e h.world content path moduleName options).calls) := by
  unfold step within
  dsimp only
  rw [hs]
  rfl

theorem step_clear : (h.step d e (.clear name)) =
    (h.next i { s with cache := s.cache.clear } h.world.disk h.builds, .done, []) := by
  unfold step within
  dsimp only
  rw [hs]
  rfl

theorem step_emit {build : String} {b : Build} (hb : h.builds.get? build = some (i, b))
    (path : String) (moduleName : Option String) :
    (h.step d e (.emit build path moduleName)) =
      (h.next i (s.emit d e h.world b path moduleName).session
          (s.emit d e h.world b path moduleName).disk h.builds,
        .emitted (s.emit d e h.world b path moduleName).answer,
        (s.emit d e h.world b path moduleName).calls) := by
  unfold step
  dsimp only
  rw [hb]
  unfold Host.emit
  dsimp only
  rw [getElem?_of_session? hs]
  rfl

end Steps

/-! ## Builds -/

theorem builds_step (hs : h.session? name = some (i, s)) (hx : h.Solo d e K name directory x) :
    (∃ s', (h.step d e x).1.session? name = some (i, s')) ∧
    ∀ m, (x.set? m = none ∧ (h.step d e x).1.builds.get? m = h.builds.get? m) ∨
      ∃ b, x.set? m = some b.set ∧ (h.step d e x).1.builds.get? m = some (i, b) := by
  obtain ⟨hx, -⟩ := hx
  cases x with
  | edit | change => exact ⟨⟨s, hs⟩, fun m => .inl ⟨rfl, rfl⟩⟩
  | openSession | bind | save | peek => exact hx.elim
  | register session build paths origin options =>
    cases hx
    rw [step_register hs]
    have hset : ∀ m, (Step.register name build paths origin options).set? m =
        if build = m then (WorkingSet.of? paths origin options).toOption else none := fun _ => rfl
    cases ho : WorkingSet.of? paths origin options with
    | error err =>
      refine ⟨⟨s, session?_next hs _ _ _⟩, fun m => .inl ⟨?_, rfl⟩⟩
      rw [hset, ho]
      split <;> rfl
    | ok set =>
      refine ⟨⟨_, session?_next hs _ _ _⟩, fun m => ?_⟩
      rw [hset, ho]
      change _ ∨ ∃ b, _ ∧ (h.builds.insert build _).get? m = _
      by_cases hm : build = m
      · rw [if_pos hm, hm, KeyMap.get?_insert_self]
        exact .inr ⟨_, rfl, rfl⟩
      · rw [if_neg hm]
        exact .inl ⟨rfl, KeyMap.get?_insert_of_ne _ _ (Ne.symm hm)⟩
  | emit build path moduleName =>
    refine ⟨?_, fun m => .inl ⟨rfl, congrArg (·.get? m) (h.builds_emit build path moduleName)⟩⟩
    unfold step
    dsimp only
    split
    · exact ⟨s, hs⟩
    · unfold Host.emit
      dsimp only
      split
      · exact ⟨s, hs⟩
      · exact exists_session?_setSession hs _ _
  | snippet session content path moduleName options =>
    cases hx
    rw [step_snippet hs]
    exact ⟨⟨_, session?_next hs _ _ _⟩, fun m => .inl ⟨rfl, rfl⟩⟩
  | clear session =>
    cases hx
    rw [step_clear hs]
    exact ⟨⟨_, session?_next hs _ _ _⟩, fun m => .inl ⟨rfl, rfl⟩⟩

/-- **The builds of a run are those that were registered last**, besides those that were there. -/
theorem builds_run (hs : h.session? name = some (i, s))
    (hl : h.Along d e (Solo d e K name directory) l) :
    (∃ s', (h.run d e l).1.session? name = some (i, s')) ∧
    ∀ m, (lastSet? m l = none ∧ (h.run d e l).1.builds.get? m = h.builds.get? m) ∨
      ∃ b, lastSet? m l = some b.set ∧ (h.run d e l).1.builds.get? m = some (i, b) := by
  induction l generalizing h s with
  | nil => exact ⟨⟨s, hs⟩, fun m => .inl ⟨rfl, rfl⟩⟩
  | cons x l ih =>
    obtain ⟨⟨s₁, hs₁⟩, hstep⟩ := builds_step hs hl.1
    obtain ⟨hs₂, hrun⟩ := ih hs₁ hl.2
    refine ⟨hs₂, fun m => ?_⟩
    rw [lastSet?]
    rcases hrun m with ⟨hnone, hb⟩ | ⟨b, hset, hb⟩
    · rw [hnone, Option.none_or]
      rcases hstep m with ⟨hx, hb'⟩ | ⟨b, hx, hb'⟩
      · exact .inl ⟨hx, hb.trans hb'⟩
      · exact .inr ⟨b, hx, hb.trans hb'⟩
    · rw [hset]
      exact .inr ⟨b, rfl, hb⟩

/-! ## Flawless runs -/

theorem Flawless.register (h : Host σ) (session build : String) (paths : List String)
    (origin : Origin) (options : Options) :
    h.Flawless d e (.register session build paths origin options) where
  writes := trivial
  answers err herr := by
    unfold Host.step within at herr
    dsimp only at herr
    split at herr
    · cases herr
    · cases herr

/-- A host where the session under a name holds nothing but what is in its files. -/
structure Alone (d : Digest) (K : ByteArray → Prop) (name directory : String) (h : Host σ)
    (i : Nat) (s : Session σ) : Prop where
  session : h.session? name = some (i, s)
  orderly : h.world.disk.Orderly directory
  kept : s.Kept d K directory h.world.disk
  places : ∀ m b, h.builds.get? m = some (i, b) → s.Places b

theorem Alone.next (ha : h.Alone d K name directory i s) {s₁ : Session σ} {disk : Disk}
    (ho : disk.Orderly directory) (hk : s₁.Kept d K directory disk)
    (hp : ∀ b, s.Places b → s₁.Places b) :
    (h.next i s₁ disk h.builds).Alone d K name directory i s₁ where
  session := session?_next ha.session s₁ disk h.builds
  orderly := ho
  kept := hk
  places m b hb := hp b (ha.places m b hb)

theorem Alone.register (ha : h.Alone d K name directory i s) (build : String) (paths : List String)
    (origin : Origin) (options : Options) :
    (h.step d e (.register name build paths origin options)).1.world = h.world ∧
      ∃ s₁, (h.step d e (.register name build paths origin options)).1.Alone d K name directory i
        s₁ := by
  rw [step_register ha.session]
  cases hset : WorkingSet.of? paths origin options with
  | error err => exact ⟨rfl, s, ha.next ha.orderly ha.kept fun _ => id⟩
  | ok set =>
    obtain ⟨hext, hplaces⟩ := ha.kept.homed.registerFiles (e := e) h.world.disk
      (WorkingSet.plain_of? hset)
    refine ⟨rfl, _, session?_next ha.session _ _ _, ha.orderly, ha.kept.extend hext,
      fun m b hb => ?_⟩
    change (h.builds.insert build _).get? m = _ at hb
    rw [KeyMap.get?_insert] at hb
    split at hb
    · cases hb; exact hplaces
    · exact hext.places b (ha.places m b hb)

/-- **A flawless step of the session leaves nothing in it that is not in its files.** -/
theorem Alone.step (ha : h.Alone d K name directory i s) (hk : e.Keeps L) (hd : d.FaithfulOn K)
    (hp : d.Plain) (hs : h.Sound L) (hsole : ∀ m p, h.builds.get? m = some p → p.1 = i)
    (hx : h.Solo d e K name directory x) (hf : h.Flawless d e x) :
    ∃ s₁, (h.step d e x).1.Alone d K name directory i s₁ := by
  obtain ⟨hx, hproper⟩ := hx
  obtain ⟨hwrites, hanswers⟩ := hf
  have hsi := hs.sessions i s (getElem?_of_session? ha.session)
  cases x with
  | edit path content =>
    have hdisk := h.world.disk_edit path content
    refine ⟨s, ha.session, ?_, ?_, ha.places⟩
    · change (h.world.edit path content).disk.Orderly directory
      rw [hdisk]
      exact ha.orderly
    · change s.Kept d K directory (h.world.edit path content).disk
      rw [hdisk]
      exact ha.kept
  | change disk => exact ⟨s, ha.session, hx.1, ha.kept.of_agrees hx.2 hp, ha.places⟩
  | openSession | bind | save | peek => exact hx.elim
  | register session build paths origin options =>
    cases hx
    exact (ha.register build paths origin options).2
  | emit build path moduleName =>
    cases hb : h.builds.get? build with
    | none =>
      rw [step_emit_of_none hb]
      exact ⟨s, ha⟩
    | some p =>
      obtain ⟨j, b⟩ := p
      cases hsole build _ hb
      rw [step_emit ha.session hb] at hanswers ⊢
      refine ⟨_, ha.next (Session.orderly_emit ha.orderly s b path moduleName)
        (ha.kept.emit hd hp ha.orderly hsi ⟨build, hb⟩ ?_ ?_ ?_)
        fun b' hb' => hb'.emit d e h.world b path moduleName⟩
      · exact hproper ⟨b, path, moduleName⟩ (request?_emit_of hb path moduleName)
      · exact hwrites _ b s hb (getElem?_of_session? ha.session)
      · exact fun err herr => hanswers err (congrArg Answer.emitted herr)
  | snippet session content path moduleName options =>
    cases hx
    rw [step_snippet ha.session] at hanswers ⊢
    rcases s.snippet_cases d e h.world content path moduleName options with
      ⟨err, hr, hsnippet⟩ | ⟨b, s', calls, hr, hsnippet⟩
    · rw [hsnippet]
      exact ⟨s, ha.next ha.orderly ha.kept fun _ => id⟩
    · obtain ⟨hext, hplaces⟩ := ha.kept.homed.register hr
      rw [hsnippet] at hanswers ⊢
      refine ⟨_, ha.next (Session.orderly_emit ha.orderly s' b _ moduleName)
        (Session.Kept.emit (ha.kept.extend hext) hd hp ha.orderly (hsi.register hk hr) (.inr rfl)
          ?_ ?_ ?_)
        fun b' hb' => (hext.places b' hb').emit d e h.world b _ moduleName⟩
      · exact hproper ⟨b, Session.pathOfSnippet d content path options, moduleName⟩
          (request?_snippet_of_ok ha.session hr moduleName)
      · exact hwrites i s b s' calls ha.session hr
      · exact fun err herr => hanswers err (congrArg Answer.emitted herr)
  | clear session =>
    cases hx
    rw [step_clear ha.session]
    exact ⟨_, ha.next ha.orderly ha.kept.clear fun _ => id⟩

/-- **A flawless run of the session leaves nothing in it that is not in its files.** -/
theorem Alone.run (ha : h.Alone d K name directory i s) (hk : e.Keeps L) (hd : d.FaithfulOn K)
    (hp : d.Plain) (hs : h.Sound L) (hsole : ∀ m p, h.builds.get? m = some p → p.1 = i)
    (hl : h.Along d e (fun h x => h.Solo d e K name directory x ∧ h.Flawless d e x) l) :
    (∃ s₁, (h.run d e l).1.Alone d K name directory i s₁) ∧ (h.run d e l).1.Sound L := by
  induction l generalizing h s with
  | nil => exact ⟨⟨s, ha⟩, hs⟩
  | cons x l ih =>
    obtain ⟨⟨hx, hf⟩, hl⟩ := hl
    obtain ⟨s₁, ha₁⟩ := ha.step hk hd hp hs hsole hx hf
    refine ih ha₁ (hs.step hk x) (fun m p hm => ?_) hl
    rcases (builds_step ha.session hx).2 m with ⟨-, hb⟩ | ⟨b, -, hb⟩
    · exact hsole m p (hb.symm.trans hm)
    · cases hb.symm.trans hm
      rfl

theorem Along.mono {P Q : Host σ → Step → Prop} (hpq : ∀ h x, P h x → Q h x)
    (hl : h.Along d e P l) : h.Along d e Q l := by
  induction l generalizing h with
  | nil => trivial
  | cons x l ih => exact ⟨hpq h x hl.1, ih hl.2⟩

end Host

end CompileCache
