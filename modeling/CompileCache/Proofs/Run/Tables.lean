import CompileCache.Proofs.Run.Versions
import CompileCache.Proofs.Session.Tables

/-!
# Tables — what the tables of a run say

* `Host.Own`: the steps of one session. `Host.Aside`: steps that have nothing to do with it, with
  its builds and with its tables. `Host.Tends`: the steps of a run of the session on a cache
  directory that can be written to.
* `Host.InStep`, `Host.InStep.emits`, **`Host.InStep.step`**: every step keeps the tables in step.
* `Host.InStep.along_tends`: on a disk without links the tables are files of their own all along.
* **`Host.tables_in_step`**: whenever an emit of the session answers, the table of its architecture
  says exactly what the tracker holds; and whenever the compiler refuses, it does so unless
  something is left unsaved.
* **`Host.table_behind`**: if the compiler refuses, the table can be left behind the tracker.
-/

namespace CompileCache

variable {σ : Type} {d : Digest} {e : Engine σ}

namespace Host

section Definitions

variable (d : Digest) (e : Engine σ)

/-- A step of the session under a name, which is at a place; contents may change meanwhile. -/
def Own (name : String) (i : Nat) (h : Host σ) : Step → Prop
  | .register session .. | .snippet session .. | .clear session | .peek session _ => session = name
  | .save session fp _ => session = name ∧ '/' ∉ fp.key.toList
  | .emit build _ _ => ∀ p ∈ h.builds.get? build, p.1 = i
  | .edit .. => True
  | .change _ | .openSession .. | .bind .. => False

/-- A step that has nothing to do with the session under a name: neither with its builds nor with
what its tables say. -/
structure Aside (name directory : String) (i : Nat) (h : Host σ) (x : Step) : Prop where
  session : (h.step d e x).1.session? name = h.session? name
  builds : ∀ m b, (h.step d e x).1.builds.get? m = some (i, b) → h.builds.get? m = some (i, b)
  tables : h.world.disk.KeepsTables directory (h.step d e x).1.world.disk

/-- A step of a run of the session under a name, on a cache directory that can be written to and
whose tables are files of their own. -/
structure Tends (name directory : String) (i : Nat) (h : Host σ) (x : Step) : Prop where
  kind : (h.Own name i x ∧ h.Writes d e x) ∨ h.Aside d e name directory i x
  discrete : (h.step d e x).1.world.disk.Discrete directory

/-- The tracker of an architecture in the session under a name. -/
def tracker? (h : Host σ) (name arch : String) : Option Tracker :=
  (h.session? name).bind fun p => (p.2.slot? arch).map (·.tracker)

end Definitions

instance (name : String) (i : Nat) (h : Host σ) (x : Step) : Decidable (h.Own name i x) :=
  match x with
  | .register session .. | .snippet session .. | .clear session | .peek session _ =>
    inferInstanceAs (Decidable (session = name))
  | .save session fp _ => inferInstanceAs (Decidable (session = name ∧ '/' ∉ fp.key.toList))
  | .emit build _ _ => inferInstanceAs (Decidable (∀ p ∈ h.builds.get? build, p.1 = i))
  | .edit .. => .isTrue trivial
  | .change _ | .openSession .. | .bind .. => .isFalse id

/-- A host where the tables of the session under a name are in step. -/
structure InStep (name directory : String) (i : Nat) (h : Host σ) (s : Session σ) : Prop where
  session : h.session? name = some (i, s)
  tables : s.InStep directory h.world.disk
  places : ∀ m b, h.builds.get? m = some (i, b) → s.Places b

variable {h : Host σ} {name directory : String} {i : Nat} {s s' : Session σ} {x : Step}
  {l : List Step} {disk : Disk}

theorem InStep.next (ht : h.InStep name directory i s) (hs : s'.InStep directory disk)
    (hp : ∀ b, s.Places b → s'.Places b) :
    (h.next i s' disk h.builds).InStep name directory i s' where
  session := session?_next ht.session s' disk h.builds
  tables := hs
  places m b hb := hp b (ht.places m b hb)

theorem InStep.setCache (ht : h.InStep name directory i s) {cache : Cache}
    (hc : cache.directory = s.cache.directory) (hk : h.world.disk.KeepsTables directory disk) :
    (h.next i { s with cache } disk h.builds).InStep name directory i { s with cache } :=
  ht.next ((ht.tables.of_keepsTables hk).setCache hc) fun _ => id

/-- What comes of an emit of the session. -/
structure Emits (directory : String) (d : Digest) (e : Engine σ) (h : Host σ) (i : Nat)
    (s : Session σ) (x : Step) (b : Build) (r : Session.Result σ) : Prop where
  host : (h.step d e x).1 = h.next i r.session r.disk h.builds
  answer : (h.step d e x).2.1 = .emitted r.answer
  settles : Session.Settles directory h.world.disk b r
  places : ∀ b, s.Places b → r.session.Places b

/-- **An emit of the session keeps its tables in step.** -/
theorem InStep.emits (ht : h.InStep name directory i s) (hp : d.Plain) (ho : h.Own name i x)
    (hw : h.Writes d e x) (hd : (h.step d e x).1.world.disk.Discrete directory) {q : Request}
    (hq : h.request? d e x = some q) : ∃ r, Emits directory d e h i s x q.build r := by
  cases x with
  | edit | change | openSession | register | bind | clear | save | peek => cases hq
  | emit build path moduleName =>
    rw [request?_emit] at hq
    obtain ⟨⟨j, b⟩, hb, rfl⟩ := Option.map_eq_some_iff.1 hq
    obtain rfl : j = i := ho _ hb
    have hstep := step_emit (d := d) (e := e) ht.session hb path moduleName
    rw [hstep] at hd
    have hwrites := hw _ b s hb (getElem?_of_session? ht.session)
    exact ⟨_, by rw [hstep], by rw [hstep],
      ht.tables.emit hp (ht.places build b hb) hwrites hd,
      fun b' hb' => hb'.emit d e h.world b path moduleName⟩
  | snippet session content path moduleName options =>
    obtain rfl : session = name := ho
    have hstep := step_snippet (d := d) (e := e) ht.session content path moduleName options
    rcases s.snippet_cases d e h.world content path moduleName options with
      ⟨err, hregister, -⟩ | ⟨b, s', calls, hregister, hsnippet⟩
    · cases (request?_snippet_of_error ht.session hregister moduleName).symm.trans hq
    cases (request?_snippet_of_ok ht.session hregister moduleName).symm.trans hq
    obtain ⟨hext, hplaces⟩ := ht.tables.homed.register hregister
    rw [hsnippet] at hstep
    rw [hstep] at hd
    refine ⟨_, by rw [hstep], by rw [hstep], ?_,
      fun b' hb' => (hext.places b' hb').emit d e h.world b _ moduleName⟩
    have hwrites := hw i s b s' calls ht.session hregister
    have hsettles := (ht.tables.extend hext).emit hp hplaces hwrites hd
    exact ⟨hsettles.inStep, hsettles.places, hsettles.answered, hsettles.refused⟩

theorem Emits.inStep {b : Build} {r : Session.Result σ} (hr : Emits directory d e h i s x b r)
    (ht : h.InStep name directory i s) :
    (h.step d e x).1.InStep name directory i r.session := by
  rw [hr.host]
  exact ht.next hr.settles.inStep hr.places

theorem InStep.register (ht : h.InStep name directory i s) (build : String) (paths : List String)
    (origin : Origin) (options : Options) : ∃ s',
      (h.step d e (.register name build paths origin options)).1.InStep name directory i s' := by
  rw [step_register ht.session]
  cases hset : WorkingSet.of? paths origin options with
  | error err => exact ⟨s, ht.next ht.tables fun _ => id⟩
  | ok set =>
    obtain ⟨hext, hplaces⟩ := ht.tables.homed.registerFiles (e := e) h.world.disk
      (WorkingSet.plain_of? hset)
    refine ⟨_, session?_next ht.session _ _ _, ht.tables.extend hext, fun m b hb => ?_⟩
    change (h.builds.insert build _).get? m = _ at hb
    rw [KeyMap.get?_insert] at hb
    split at hb
    · cases hb; exact hplaces
    · exact hext.places b (ht.places m b hb)

theorem step_save (hs : h.session? name = some (i, s)) (fp : Fingerprint) (u : Artifact) :
    h.step d e (.save name fp u) =
      (h.next i { s with cache := (s.cache.save h.world.disk fp u).1 }
        (s.cache.save h.world.disk fp u).2 h.builds, .done, []) := by
  unfold step within
  dsimp only
  rw [hs]
  rfl

theorem step_peek (hs : h.session? name = some (i, s)) (fp : Fingerprint) :
    (h.step d e (.peek name fp)).1 =
      h.next i { s with cache := s.cache.fetch h.world.disk fp } h.world.disk h.builds := by
  have hget := s.cache.get_reuse h.world.disk fp (id : CacheError → CacheError)
  unfold step within
  dsimp only
  rw [hs]
  dsimp only
  rw [hget]
  rfl

theorem InStep.save (ht : h.InStep name directory i s) {fp : Fingerprint}
    (hkey : '/' ∉ fp.key.toList) (u : Artifact)
    (hd : (s.cache.save h.world.disk fp u).2.Discrete directory) :
    (h.next i { s with cache := (s.cache.save h.world.disk fp u).1 }
      (s.cache.save h.world.disk fp u).2 h.builds).InStep name directory i
        { s with cache := (s.cache.save h.world.disk fp u).1 } := by
  refine ht.setCache rfl fun arch t ha hf => ?_
  have hdisk : (s.cache.save h.world.disk fp u).2 =
      (h.world.disk.writeUnder (Cache.entryPath directory fp.key) (.entry ⟨fp, u⟩)).1 := by
    change s.cache.writeEntry h.world.disk ⟨fp, u⟩ = _
    unfold Cache.writeEntry Cache.entryPath?
    rw [ht.tables.homed.bound]
    rfl
  rw [hdisk] at hd ⊢
  refine hf.written (.single (Q := (· = Cache.entryPath directory fp.key)) rfl _ _) ?_
  rintro q rfl
  exact ⟨hd.entries arch fp.key ha hkey, (Desk.names_entryPath_ne_tablePath _ _ _ _).symm⟩

/-- **Every step keeps the tables of the session in step.** -/
theorem InStep.step (ht : h.InStep name directory i s) (hp : d.Plain)
    (hx : h.Tends d e name directory i x) :
    ∃ s', (h.step d e x).1.InStep name directory i s' := by
  obtain ⟨⟨ho, hw⟩ | haside, hd⟩ := hx
  case inr =>
    exact ⟨s, haside.session.trans ht.session, ht.tables.of_keepsTables haside.tables,
      fun m b hb => ht.places m b (haside.builds m b hb)⟩
  cases x with
  | change | openSession | bind => exact ho.elim
  | edit path content =>
    refine ⟨s, ht.session, ?_, ht.places⟩
    change s.InStep directory (h.world.edit path content).disk
    rw [h.world.disk_edit path content]
    exact ht.tables
  | register session build paths origin options =>
    obtain rfl : session = name := ho
    exact ht.register build paths origin options
  | clear session =>
    obtain rfl : session = name := ho
    rw [step_clear ht.session]
    exact ⟨_, ht.setCache rfl (.refl _ _)⟩
  | peek session fp =>
    obtain rfl : session = name := ho
    rw [step_peek ht.session]
    exact ⟨_, ht.setCache (s.cache.directory_fetch h.world.disk fp) (.refl _ _)⟩
  | save session fp u =>
    obtain ⟨rfl, hkey⟩ := ho
    rw [step_save ht.session] at hd ⊢
    exact ⟨_, ht.save hkey u hd⟩
  | emit build path moduleName =>
    cases hq : h.request? d e (.emit build path moduleName) with
    | some q =>
      obtain ⟨r, hr⟩ := ht.emits hp ho hw hd hq
      exact ⟨_, hr.inStep ht⟩
    | none =>
      rw [request?_emit] at hq
      rw [step_emit_of_none (Option.map_eq_none_iff.1 hq)]
      exact ⟨s, ht⟩
  | snippet session content path moduleName options =>
    obtain rfl : session = name := ho
    rcases s.snippet_cases d e h.world content path moduleName options with
      ⟨err, -, hsnippet⟩ | ⟨b, s', calls, hr, -⟩
    · rw [step_snippet ht.session, hsnippet]
      exact ⟨s, ht.next ht.tables fun _ => id⟩
    · obtain ⟨r, hr⟩ := ht.emits (x := .snippet session content path moduleName options) hp rfl
        hw hd (request?_snippet_of_ok ht.session hr moduleName)
      exact ⟨_, hr.inStep ht⟩

/-- **Every run keeps the tables of the session in step.** -/
theorem InStep.run (ht : h.InStep name directory i s) (hp : d.Plain)
    (hl : h.Along d e (Tends d e name directory i) l) :
    ∃ s', (h.run d e l).1.InStep name directory i s' := by
  induction l generalizing h s with
  | nil => exact ⟨s, ht⟩
  | cons x l ih =>
    obtain ⟨s₁, ht₁⟩ := ht.step hp hl.1
    exact ih ht₁ hl.2

/-! ## Disks without links -/

theorem InStep.linkless (ht : h.InStep name directory i s) (hp : d.Plain)
    (hl : h.world.disk.Linkless) (ho : h.Own name i x) :
    (h.step d e x).1.world.disk.Linkless := by
  cases x with
  | change | openSession | bind => exact ho.elim
  | edit path content =>
    change (h.world.edit path content).disk.Linkless
    rw [h.world.disk_edit path content]
    exact hl
  | register session build paths origin options =>
    obtain rfl : session = name := ho
    rw [step_register ht.session]
    cases WorkingSet.of? paths origin options <;> exact hl
  | clear session =>
    obtain rfl : session = name := ho
    rw [step_clear ht.session]
    exact hl
  | peek session fp =>
    obtain rfl : session = name := ho
    rw [step_peek ht.session]
    exact hl
  | save session fp u =>
    obtain ⟨rfl, -⟩ := ho
    rw [step_save ht.session]
    change (s.cache.writeEntry h.world.disk ⟨fp, u⟩).Linkless
    unfold Cache.writeEntry
    split
    · exact hl
    · exact hl.writeUnder _ _
  | emit build path moduleName =>
    cases hb : h.builds.get? build with
    | none =>
      rw [step_emit_of_none hb]
      exact hl
    | some p =>
      obtain ⟨j, b⟩ := p
      obtain rfl : j = i := ho _ hb
      rw [step_emit ht.session hb]
      exact Session.linkless_emit hp hl s b path moduleName
  | snippet session content path moduleName options =>
    obtain rfl : session = name := ho
    rw [step_snippet ht.session]
    rcases s.snippet_cases d e h.world content path moduleName options with
      ⟨err, -, hsnippet⟩ | ⟨b, s', calls, -, hsnippet⟩
    · rw [hsnippet]
      exact hl
    · rw [hsnippet]
      exact Session.linkless_emit hp hl s' b _ moduleName

/-- On a disk without links, the tables of a directory whose path has no two points are files of
their own throughout a run. -/
theorem InStep.along_tends (ht : h.InStep name directory i s) (hp : d.Plain)
    (hdots : ".." ∉ Path.pieces directory) (hlink : h.world.disk.Linkless)
    (hl : h.Along d e (fun h x => h.Own name i x ∧ h.Writes d e x) l) :
    h.Along d e (Tends d e name directory i) l := by
  induction l generalizing h s with
  | nil => trivial
  | cons x l ih =>
    obtain ⟨⟨ho, hw⟩, hl⟩ := hl
    have hlink₁ := ht.linkless (e := e) hp hlink ho
    have hx : h.Tends d e name directory i x := ⟨.inl ⟨ho, hw⟩, hlink₁.discrete hdots⟩
    obtain ⟨s₁, ht₁⟩ := ht.step hp hx
    exact ⟨hx, ih ht₁ hlink₁ hl⟩

/-! ## Runs of a session -/

theorem inStep_started (w : World) (name directory : String) :
    (started w name (some directory) : Host σ).InStep name directory 1
      (.new (.onDisk directory)) where
  session := by
    unfold started session? openSession
    dsimp only
    rw [KeyMap.get?_insert_self]
    rfl
  tables := Session.inStep_new directory w.disk
  places m b hb := by cases hb

/-- **No version is left unsaved by an emit that answers.** Whenever an emit of the session answers,
the table of its architecture says exactly what the tracker of the architecture holds. Whenever the
compiler refuses, nothing is written, and the table says so too unless the tracker is left with
something unsaved. -/
theorem tables_in_step (hp : d.Plain) {w : World}
    (hl : (started w name (some directory)).Along d e (Tends d e name directory 1) l)
    (ho : ((started w name (some directory)).run d e l).1.Own name 1 x)
    (hw : ((started w name (some directory)).run d e l).1.Writes d e x)
    (hd : (((started w name (some directory)).run d e l).1.step d e x).1.world.disk.Discrete
      directory)
    {q : Request} (hq : ((started w name (some directory)).run d e l).1.request? d e x = some q) :
    let h := ((started w name (some directory)).run d e l).1
    let h' := (h.step d e x).1
    let file := Slot.tablePath directory q.build.set.options.arch
    (∀ em, (h.step d e x).2.1 = .emitted (.ok em) →
      ∃ t, h'.tracker? name q.build.set.options.arch = some t ∧ t.dirty = false ∧
        t.Filed h'.world.disk file) ∧
    ∀ err, (h.step d e x).2.1 = .emitted (.error (.engine err)) → h'.world.disk = h.world.disk ∧
      ∃ t, h'.tracker? name q.build.set.options.arch = some t ∧
        (t.dirty = true ∨ t.Filed h'.world.disk file) := by
  intro h h' file
  obtain ⟨s, ht⟩ := (inStep_started w name directory).run hp hl
  obtain ⟨r, hr⟩ := ht.emits hp ho hw hd hq
  have hdisk : h'.world.disk = r.disk := congrArg (·.world.disk) hr.host
  have htracker : ∀ arch slot, r.session.slot? arch = some slot →
      h'.tracker? name arch = some slot.tracker := by
    intro arch slot hslot
    unfold tracker?
    rw [(hr.inStep ht).session, Option.bind_some, hslot]
    rfl
  rw [hdisk]
  constructor
  · intro em hem
    obtain ⟨slot, hslot, hsaved⟩ := hr.settles.answered em
      (Answer.emitted.inj (hr.answer.symm.trans hem))
    exact ⟨slot.tracker, htracker _ slot hslot, hsaved⟩
  · intro err herr
    obtain ⟨hsame, slot, hslot, hsaved⟩ := hr.settles.refused err
      (Answer.emitted.inj (hr.answer.symm.trans herr))
    exact ⟨hsame, slot.tracker, htracker _ slot hslot, hsaved⟩

/-! ## A compiler that crashes -/

/-- A compiler that gives up on one content. -/
def touchy : Engine WorkingSet where
  create _ := default
  load _ set := set
  compile view set path _ :=
    (if (view set.origin).content path = some "!" then .error (.failed path "gave up")
      else .ok default, set)
  diagnose _ set _ := (.ok default, set)

/-- A host with a session on a cache directory, after some steps. -/
def bound (l : List Step) : Host WorkingSet :=
  ((started .empty "" (some "b")).run (.brief usualTail) touchy l).1

/-- A file is emitted, and written so that the compiler gives up on it. -/
def spoiling : List Step :=
  [.edit "a.ts" (some "x"), .register "" "m" ["a.ts"] .live {}, .emit "m" "a.ts" none,
    .edit "a.ts" (some "!")]

/-- The file is emitted as it is, and then written once more. -/
def mending : List Step := spoiling ++ [.emit "m" "a.ts" none, .edit "a.ts" (some "y")]

/-- The file is emitted. -/
def again : Step := .emit "m" "a.ts" none

theorem own_mending : (started .empty "" (some "b")).Along (.brief usualTail) touchy
    (fun h x => h.Own "" 1 x ∧ h.Writes (.brief usualTail) touchy x) (mending ++ [again]) := by
  decide +kernel

theorem tends_mending : (started .empty "" (some "b")).Along (.brief usualTail) touchy
    (Tends (.brief usualTail) touchy "" "b" 1) (mending ++ [again]) :=
  (inStep_started .empty "" "b").along_tends (Digest.brief_plain _) (by decide)
    Disk.linkless_empty own_mending

/-- What a file of the run is emitted from. -/
def spoiledBuild : Build := ⟨⟨["a.ts"], .live, {}⟩, 0, 1⟩

theorem run_mending :
    (bound mending).builds.get? "m" = some (1, spoiledBuild) ∧
    ((bound mending).step (.brief usualTail) touchy again).2.1.emission?.map (·.unit.version) =
      some 3 := by decide +kernel

/-- The table of a compiler that crashed once and was asked again. -/
theorem tables_in_step_mending :
    let h' := ((bound mending).step (.brief usualTail) touchy again).1
    (∃ em, ((bound mending).step (.brief usualTail) touchy again).2.1 = .emitted (.ok em) ∧
      em.unit.version = 3) ∧
    ∃ t, h'.tracker? "" "os" = some t ∧ t.dirty = false ∧
      t.Filed h'.world.disk (Slot.tablePath "b" "os") := by
  intro h'
  obtain ⟨hbuild, hversion⟩ := run_mending
  obtain ⟨em, hem, hversion⟩ := Option.map_eq_some_iff.1 hversion
  have hem := Answer.eq_of_emission? hem
  obtain ⟨⟨ho, hw⟩, -⟩ := own_mending.append.2
  obtain ⟨hl, hx, -⟩ := tends_mending.append
  have hq : (bound mending).request? (.brief usualTail) touchy again =
      some ⟨spoiledBuild, "a.ts", none⟩ := by
    rw [again, request?_emit, hbuild]
    rfl
  exact ⟨⟨em, hem, hversion⟩,
    (tables_in_step (Digest.brief_plain _) hl ho hw hx.discrete hq).1 em hem⟩

theorem run_spoiling :
    ((bound spoiling).step (.brief usualTail) touchy again).2.1.refusal? =
      some (.failed "a.ts" "gave up") ∧
    ((bound (spoiling ++ [again])).tracker? "" "os").map (·.current "a.ts") =
      some (some ⟨2, "=!"⟩) ∧
    (Tracker.load (bound (spoiling ++ [again])).world.disk (Slot.tablePath "b" "os")).current
      "a.ts" = some ⟨1, "=x"⟩ := by decide +kernel

/-- **A table can be left behind.** The file is emitted once, and then the compiler gives up on what
is written to it: the tracker has given out a version that the table says nothing of. -/
theorem table_behind :
    let h := bound (spoiling ++ [again])
    (started .empty "" (some "b")).Along (.brief usualTail) touchy
      (Tends (.brief usualTail) touchy "" "b" 1) (spoiling ++ [again]) ∧
    ((bound spoiling).step (.brief usualTail) touchy again).2.1 =
      .emitted (.error (.engine (.failed "a.ts" "gave up"))) ∧
    ∃ t, h.tracker? "" "os" = some t ∧ t.current "a.ts" = some ⟨2, "=!"⟩ ∧
      (Tracker.load h.world.disk (Slot.tablePath "b" "os")).current "a.ts" = some ⟨1, "=x"⟩ ∧
      ¬ t.Filed h.world.disk (Slot.tablePath "b" "os") := by
  intro h
  obtain ⟨hanswer, htracker, htable⟩ := run_spoiling
  obtain ⟨t, ht, hcurrent⟩ := Option.map_eq_some_iff.1 htracker
  have hl : (started .empty "" (some "b")).Along (.brief usualTail) touchy
      (Tends (.brief usualTail) touchy "" "b" 1)
      ((spoiling ++ [again]) ++ [.edit "a.ts" (some "y"), again]) := tends_mending
  refine ⟨hl.append.1, congrArg Answer.emitted (Answer.eq_of_refusal? hanswer), t, ht, hcurrent,
    htable, fun hf => ?_⟩
  rw [hf.load_eq] at htable
  change t.current "a.ts" = _ at htable
  rw [hcurrent] at htable
  cases htable

end Host

end CompileCache
