import CompileCache.Proofs.Run.Solo
import CompileCache.Proofs.Session.Shelves

/-!
# Versions — what the versions of a run tell

* `Host.started`: a host in a world, with a session in memory or on a cache directory.
* `Host.Among`: the steps of a run of one session that turns from one cache directory to another.
* `Host.OfEmit`: what holds of the emit of a step. `Host.Regular`: it is in order.
* `Host.Tabled`, `Host.Advances`, **`Host.Tabled.step`**: steps keep the session up to date, and its
  tables count on.
* **`Host.Tabled.follows_run`**: what a run emits follows what the tables said before.
* **`Host.versions_identify`**: in such runs a version identifies a content, and no version in a
  table gets lower. `Host.versions_mix`: it does not if older slots are used.
-/

namespace CompileCache

variable {σ : Type} {d : Digest} {e : Engine σ} {D : String → Prop}

/-- The version of an event, with the hash of its content. -/
def Event.stamp? (d : Digest) (ev : Event) : Option Stamp :=
  (ev.source.content ev.path).map fun content => ⟨ev.emission.unit.version, d.ofText content⟩

namespace Host

section Definitions

variable (d : Digest) (e : Engine σ)

/-- A host in a world, with a session in memory or on a cache directory. -/
def started (w : World) (name : String) (directory : Option String) : Host σ :=
  { (new : Host σ) with world := w }.openSession name
    ((directory.map Cache.onDisk).getD .inMemory)

/-- A step of the session under a name, which turns to some cache directories only: others may
change contents and files, but not those of the cache directories. -/
def Among (D : String → Prop) (name : String) (h : Host σ) : Step → Prop
  | .change disk => ∀ directory, D directory →
    disk.Orderly directory ∧ h.world.disk.Agrees disk directory
  | .register session .. | .snippet session .. | .clear session => session = name
  | .bind session directory => session = name ∧ D directory
  | .edit .. | .emit .. => True
  | .openSession .. | .save .. | .peek .. => False

/-- What holds of the emit of a step: of the session that emits, the build and what is asked for. -/
def OfEmit (P : Session σ → Build → String → Option String → Prop) (h : Host σ) : Step → Prop
  | .emit build path moduleName => ∀ i b s, h.builds.get? build = some (i, b) →
    h.sessions[i]? = some s → P s b path moduleName
  | .snippet session content path moduleName options => ∀ i s b s' calls,
    h.session? session = some (i, s) →
    s.registerSnippet d e h.world.disk content path options = (.ok b, s', calls) →
    P s' b (Session.pathOfSnippet d content path options) moduleName
  | _ => True

/-- The emit of a step is in order. -/
def Regular (h : Host σ) (x : Step) : Prop :=
  h.OfEmit d e (fun s b path moduleName => s.Regular d e h.world b path moduleName) x

/-- The file of the records of the slot that a build of a session belongs to. -/
def tableOf? (h : Host σ) (name : String) (b : Build) : Option String :=
  (h.session? name).bind fun p => p.2.tables[b.slot]?.join

end Definitions

instance (P : Session σ → Build → String → Option String → Prop)
    [∀ s b path moduleName, Decidable (P s b path moduleName)] (h : Host σ) (x : Step) :
    Decidable (h.OfEmit d e P x) :=
  match x with
  | .emit build path moduleName =>
    decidable_of_iff (∀ p ∈ h.builds.get? build, ∀ s ∈ h.sessions[p.1]?, P s p.2 path moduleName)
      ⟨fun h _ _ s hb hs => h _ hb s hs, fun h p hb s hs => h p.1 p.2 s hb hs⟩
  | .snippet session content path moduleName options =>
    decidable_of_iff (∀ p ∈ h.session? session,
        ∀ b ∈ (p.2.registerSnippet d e h.world.disk content path options).1.toOption,
          P (p.2.registerSnippet d e h.world.disk content path options).2.1 b
            (Session.pathOfSnippet d content path options) moduleName) <| by
      constructor
      · intro h i s b s' calls hs hr
        have hp := h _ hs b
        rw [hr] at hp
        exact hp rfl
      · intro h p hs b hb
        exact h p.1 p.2 b _ _ hs (Prod.ext (ok_of_toOption hb) rfl)
  | .edit .. | .change _ | .openSession .. | .register .. | .bind .. | .clear _ | .save ..
  | .peek .. => .isTrue trivial

instance (h : Host σ) (x : Step) : Decidable (h.Regular d e x) :=
  inferInstanceAs (Decidable (h.OfEmit d e _ x))

theorem writes_iff (h : Host σ) (x : Step) : h.OfEmit d e
    (fun s b path moduleName => s.Writes d e h.world b path moduleName) x ↔ h.Writes d e x := by
  cases x <;> exact Iff.rfl

instance (h : Host σ) (x : Step) : Decidable (h.Writes d e x) :=
  decidable_of_iff _ (h.writes_iff x)

instance decidableAlong (P : Host σ → Step → Prop) [∀ h x, Decidable (P h x)] :
    (l : List Step) → (h : Host σ) → Decidable (h.Along d e P l)
  | [], _ => .isTrue trivial
  | x :: l, h =>
    have := decidableAlong P l (h.step d e x).1
    inferInstanceAs (Decidable (P h x ∧ (h.step d e x).1.Along d e P l))

/-- A host where the session under a name is up to date, and all builds are builds of it. -/
structure Tabled (D : String → Prop) (name : String) (h : Host σ) (i : Nat) (s : Session σ) :
    Prop where
  session : h.session? name = some (i, s)
  sole : ∀ m p, h.builds.get? m = some p → p.1 = i
  orderly : ∀ directory, D directory → h.world.disk.Orderly directory
  tabled : s.Tabled D h.world.disk

variable {h h' : Host σ} {name : String} {i : Nat} {s s' : Session σ} {x : Step} {l : List Step}

theorem Tabled.next (ht : h.Tabled D name i s) {disk : Disk}
    (ho : ∀ directory, D directory → disk.Orderly directory) (hs : s'.Tabled D disk) :
    (h.next i s' disk h.builds).Tabled D name i s' where
  session := session?_next ht.session s' disk h.builds
  sole := ht.sole
  orderly := ho
  tabled := hs

theorem step_bind (hs : h.session? name = some (i, s)) (directory : String) :
    h.step d e (.bind name directory) =
      (h.next i (s.bind directory).2 h.world.disk h.builds, .bound (s.bind directory).1, []) := by
  unfold step within
  dsimp only
  rw [hs]
  rfl

/-- What a step leaves: the session up to date with the tables that it had, no lost records and no
lower versions in tables, and the emission in the table of its slot. -/
structure Advances (D : String → Prop) (d : Digest) (e : Engine σ) (name : String) (h : Host σ)
    (i : Nat) (s : Session σ) (x : Step) (s' : Session σ) : Prop where
  tabled : (h.step d e x).1.Tabled D name i s'
  tables : s.tables <+: s'.tables
  precedes : ∀ file, Slot.IsTable D file → (Tracker.load h.world.disk file).Precedes
    (Tracker.load (h.step d e x).1.world.disk file)
  recorded : ∀ ev, h.event? d e x = some ev → Session.Recorded d s'.tables
    (h.step d e x).1.world.disk ev.source ev.build ev.path ev.emission

theorem Advances.of_quiet (ht : (h.step d e x).1.Tabled D name i s') (hs : s.tables <+: s'.tables)
    (hload : ∀ file, Slot.IsTable D file → Tracker.load (h.step d e x).1.world.disk file =
      Tracker.load h.world.disk file) (hev : h.event? d e x = none) :
    Advances D d e name h i s x s' where
  tabled := ht
  tables := hs
  precedes file hf := by
    rw [hload file hf]
    exact .refl _
  recorded ev he := by
    rw [hev] at he
    cases he

theorem Tabled.quiet (ht : h.Tabled D name i s)
    (hstep : (h.step d e x).1 = h.next i s' h.world.disk h.builds) (hs : s'.Tabled D h.world.disk)
    (htables : s.tables <+: s'.tables) (hev : h.event? d e x = none) :
    Advances D d e name h i s x s' := by
  refine .of_quiet ?_ htables (fun file _ => ?_) hev
  · rw [hstep]
    exact ht.next ht.orderly hs
  · rw [hstep]
    rfl

/-- A step that emits from the session, or from what a registration makes of it. -/
theorem Tabled.emits (ht : h.Tabled D name i s) (hp : d.Plain) {s₁ : Session σ} {b : Build}
    {path : String} {moduleName : Option String} (hs₁ : s₁.Tabled D h.world.disk)
    (htables : s.tables <+: s₁.tables) (hr : s₁.Regular d e h.world b path moduleName)
    (hq : h.request? d e x = some ⟨b, path, moduleName⟩)
    (hstep : (h.step d e x).1 = h.next i (s₁.emit d e h.world b path moduleName).session
      (s₁.emit d e h.world b path moduleName).disk h.builds)
    (hanswer : (h.step d e x).2.1 = .emitted (s₁.emit d e h.world b path moduleName).answer) :
    Advances D d e name h i s x (s₁.emit d e h.world b path moduleName).session := by
  have hemit := hs₁.emit hp ht.orderly hr
  constructor
  case tabled =>
    rw [hstep]
    exact ht.next (fun directory hd => Session.orderly_emit (ht.orderly directory hd) s₁ b path
      moduleName) hemit.tabled
  case tables =>
    rw [hemit.tables]
    exact htables
  case precedes =>
    rw [hstep]
    exact hemit.precedes
  case recorded =>
    intro ev hev
    rw [event?_of_request? hq, hanswer] at hev
    obtain ⟨em, hem, rfl⟩ := Option.map_eq_some_iff.1 hev
    rw [hstep, hemit.tables]
    exact hemit.recorded em (ok_of_toOption hem)

theorem Tabled.register (ht : h.Tabled D name i s) (build : String) (paths : List String)
    (origin : Origin) (options : Options) :
    ∃ s', Advances D d e name h i s (.register name build paths origin options) s' := by
  have hstep := step_register (d := d) (e := e) ht.session build paths origin options
  cases hset : WorkingSet.of? paths origin options with
  | error err =>
    rw [hset] at hstep
    exact ⟨s, ht.quiet (congrArg Prod.fst hstep) ht.tabled (List.prefix_refl _) rfl⟩
  | ok set =>
    rw [hset] at hstep
    obtain ⟨htabled, htables⟩ := ht.tabled.registerFiles (e := e) (WorkingSet.plain_of? hset)
    refine ⟨_, .of_quiet ?_ htables (fun file _ => ?_) rfl⟩
    · rw [hstep]
      refine ⟨session?_next ht.session _ _ _, fun m p hm => ?_, ht.orderly, htabled⟩
      change (h.builds.insert build _).get? m = _ at hm
      rw [KeyMap.get?_insert] at hm
      split at hm
      · cases hm; rfl
      · exact ht.sole m p hm
    · rw [hstep]
      rfl

theorem Tabled.bind (ht : h.Tabled D name i s) {directory : String} (hd : D directory) :
    ∃ s', Advances D d e name h i s (.bind name directory) s' := by
  have hstep := step_bind (d := d) (e := e) ht.session directory
  have hshelf := s.shelf_bind directory
  have htables : (s.bind directory).2.tables = s.tables := congrArg (·.map Prod.fst) hshelf
  refine ⟨_, ht.quiet (congrArg Prod.fst hstep) (ht.tabled.of_shelf hshelf fun dir hdir => ?_)
    (htables ▸ List.prefix_refl _) rfl⟩
  rcases s.directory_bind directory dir hdir with hdir | rfl
  · exact ht.tabled.bound dir hdir
  · exact hd

theorem Tabled.emit (ht : h.Tabled D name i s) (hp : d.Plain) {build path : String}
    {moduleName : Option String} (hr : h.Regular d e (.emit build path moduleName)) :
    ∃ s', Advances D d e name h i s (.emit build path moduleName) s' := by
  cases hb : h.builds.get? build with
  | none =>
    have hstep := step_emit_of_none (d := d) (e := e) hb path moduleName
    refine ⟨s, .of_quiet ?_ (List.prefix_refl _) (fun file hf => ?_)
      (event?_of_request?_none (request?_emit_of_none hb path moduleName))⟩
    · rw [hstep]; exact ht
    · rw [hstep]
  | some p =>
    obtain ⟨j, b⟩ := p
    obtain rfl : j = i := ht.sole build _ hb
    have hstep := step_emit (d := d) (e := e) ht.session hb path moduleName
    exact ⟨_, ht.emits hp ht.tabled (List.prefix_refl _)
      (hr _ b s hb (getElem?_of_session? ht.session)) (request?_emit_of hb path moduleName)
      (by rw [hstep]) (by rw [hstep])⟩

theorem Tabled.snippet (ht : h.Tabled D name i s) (hp : d.Plain) {content : String}
    {path moduleName : Option String} {options : Options}
    (hr : h.Regular d e (.snippet name content path moduleName options)) :
    ∃ s', Advances D d e name h i s (.snippet name content path moduleName options) s' := by
  have hstep := step_snippet (d := d) (e := e) ht.session content path moduleName options
  rcases s.snippet_cases d e h.world content path moduleName options with
    ⟨err, hregister, hsnippet⟩ | ⟨b, s', calls, hregister, hsnippet⟩
  · rw [hsnippet] at hstep
    exact ⟨s, ht.quiet (congrArg Prod.fst hstep) ht.tabled (List.prefix_refl _)
      (event?_of_request?_none (request?_snippet_of_error ht.session hregister moduleName))⟩
  · obtain ⟨set, hset, hfiles⟩ := Session.registerFiles_of_register hregister
    obtain ⟨htabled, htables⟩ := ht.tabled.registerFiles (e := e) (WorkingSet.plain_of? hset)
    rw [hfiles] at htabled htables
    rw [hsnippet] at hstep
    exact ⟨_, ht.emits hp htabled htables (hr i s b s' calls ht.session hregister)
      (request?_snippet_of_ok ht.session hregister moduleName) (by rw [hstep]) (by rw [hstep])⟩

/-- **Steps of the session keep it up to date**, with the tables that it had, and its tables count
on. -/
theorem Tabled.step (ht : h.Tabled D name i s) (hp : d.Plain) (hx : h.Among D name x)
    (hr : h.Regular d e x) : ∃ s', Advances D d e name h i s x s' := by
  cases x with
  | edit path content =>
    have hdisk := h.world.disk_edit path content
    refine ⟨s, .of_quiet ⟨ht.session, ht.sole, ?_, ?_⟩ (List.prefix_refl _) (fun file _ => ?_) rfl⟩
    · exact hdisk ▸ ht.orderly
    · exact hdisk ▸ ht.tabled
    · exact congrArg (Tracker.load · file) hdisk
  | change disk =>
    refine ⟨s, .of_quiet ⟨ht.session, ht.sole, fun directory hd => (hx directory hd).1, ?_⟩
      (List.prefix_refl _) (fun file hf => ?_) rfl⟩
    · exact ht.tabled.of_agrees fun directory hd => (hx directory hd).2
    · obtain ⟨directory, arch, hd, ha, rfl⟩ := hf
      exact Tracker.load_congr ((hx directory hd).2.table ha)
  | openSession | save | peek => exact hx.elim
  | register session build paths origin options =>
    cases hx
    exact ht.register build paths origin options
  | bind session directory =>
    obtain ⟨rfl, hd⟩ := hx
    exact ht.bind hd
  | clear session =>
    cases hx
    have hstep := step_clear (d := d) (e := e) ht.session
    exact ⟨_, ht.quiet (congrArg Prod.fst hstep) (ht.tabled.of_shelf rfl ht.tabled.bound)
      (List.prefix_refl _) rfl⟩
  | emit build path moduleName => exact ht.emit hp hr
  | snippet session content path moduleName options =>
    cases hx
    exact ht.snippet hp hr

/-! ## Runs -/

/-- A step of the session whose emit is in order. -/
structure Steady (D : String → Prop) (d : Digest) (e : Engine σ) (name : String) (h : Host σ)
    (x : Step) : Prop where
  among : h.Among D name x
  regular : h.Regular d e x

/-- **The tables of a run count on**, and the session keeps its slots. -/
theorem Tabled.run (ht : h.Tabled D name i s) (hp : d.Plain)
    (hl : h.Along d e (Steady D d e name) l) :
    ∃ s', (h.run d e l).1.Tabled D name i s' ∧ s.tables <+: s'.tables ∧
      ∀ file, Slot.IsTable D file → (Tracker.load h.world.disk file).Precedes
        (Tracker.load (h.run d e l).1.world.disk file) := by
  induction l generalizing h s with
  | nil => exact ⟨s, ht, List.prefix_refl _, fun file _ => .refl _⟩
  | cons x l ih =>
    obtain ⟨s₁, hx⟩ := ht.step hp hl.1.among hl.1.regular
    obtain ⟨s', ht', htables, hloads⟩ := ih hx.tabled hl.2
    exact ⟨s', ht', hx.tables.trans htables, fun file hf =>
      (hx.precedes file hf).trans (hloads file hf)⟩

/-- What a session recorded is in the table of its slot, at any later time. -/
theorem exists_stamp_of_recorded {tables : List (Option String)} (hs : s.Tabled D h.world.disk)
    (htables : s.tables <+: tables) {ev : Event} {file : String}
    (hrec : Session.Recorded d s.tables h.world.disk ev.source ev.build ev.path ev.emission)
    (hf : file ∈ tables[ev.build.slot]?.join) :
    ∃ stamp, ev.stamp? d = some stamp ∧ Slot.IsTable D file ∧
      (Tracker.load h.world.disk file).current ev.path = some stamp := by
  obtain ⟨content, table, hc, htable, hcurrent⟩ := hrec
  obtain ⟨rest, rfl⟩ := htables
  rw [List.getElem?_append_left (List.getElem?_eq_some_iff.1 htable).1, htable] at hf
  refine ⟨_, ?_, hs.isTable htable hf, hcurrent file hf⟩
  unfold Event.stamp?
  rw [hc]
  rfl

/-- **What a run emits follows what the tables said before**: the version of an event is higher than
the one that the table of its slot had for the path, or it is the same one for the same content. -/
theorem Tabled.follows_run (ht : h.Tabled D name i s) (hp : d.Plain)
    (hl : h.Along d e (Steady D d e name) l)
    (hs' : (h.run d e l).1.session? name = some (i, s')) {ev : Event}
    (hev : ev ∈ h.events d e l) {file file' : String} (hf : Slot.IsTable D file)
    (hf' : file' ∈ s'.tables[ev.build.slot]?.join) (hn : Path.names file' = Path.names file)
    {old : Stamp} (hold : (Tracker.load h.world.disk file).current ev.path = some old) :
    ∃ new, ev.stamp? d = some new ∧ new.Follows old := by
  induction l generalizing h s old with
  | nil => exact absurd hev List.not_mem_nil
  | cons x l ih =>
    obtain ⟨s₁, hx⟩ := ht.step hp hl.1.among hl.1.regular
    obtain ⟨mid, hmid, hfollows⟩ := hx.precedes file hf ev.path old hold
    rcases List.mem_append.1 hev with hev | hev
    · obtain ⟨s₂, ht₂, htables, -⟩ := hx.tabled.run hp hl.2
      cases hs'.symm.trans ht₂.session
      obtain ⟨new, hnew, hf'', hcurrent⟩ := exists_stamp_of_recorded hx.tabled.tabled htables
        (hx.recorded ev (Option.mem_toList.1 hev)) hf'
      -- two spellings of one table
      rw [hf.load_eq hf'' hn (Slot.byteSize_lt_of_load hmid)
        (Slot.byteSize_lt_of_load hcurrent), hmid] at hcurrent
      cases hcurrent
      exact ⟨mid, hnew, hfollows⟩
    · obtain ⟨new, hnew, hfollows'⟩ := ih hx.tabled hl.2 hs' hev hmid
      exact ⟨new, hnew, hfollows'.trans hfollows⟩

/-- Two events through slots with one table: the stamp of the later one follows that of the other
one if they are about one path. -/
def Ordered (d : Digest) (h : Host σ) (name : String) (ev ev' : Event) : Prop :=
  ∀ file ∈ h.tableOf? name ev.build, ∀ file' ∈ h.tableOf? name ev'.build,
    Path.names file' = Path.names file → ev'.path = ev.path →
    ∃ old new, ev.stamp? d = some old ∧ ev'.stamp? d = some new ∧ new.Follows old

theorem Tabled.ordered_run (ht : h.Tabled D name i s) (hp : d.Plain)
    (hl : h.Along d e (Steady D d e name) l) :
    (h.events d e l).Pairwise (Ordered d (h.run d e l).1 name) := by
  induction l generalizing h s with
  | nil => exact .nil
  | cons x l ih =>
    obtain ⟨s₁, hx⟩ := ht.step hp hl.1.among hl.1.regular
    refine List.pairwise_append.2 ⟨?_, ih hx.tabled hl.2, ?_⟩
    · cases h.event? d e x with
      | none => exact .nil
      | some ev => exact List.pairwise_singleton _ ev
    · intro ev hev ev' hev' file hf file' hf' hn hpath
      obtain ⟨s', ht', htables, -⟩ := hx.tabled.run hp hl.2
      change file ∈ (((h.step d e x).1.run d e l).1.session? name).bind _ at hf
      change file' ∈ (((h.step d e x).1.run d e l).1.session? name).bind _ at hf'
      rw [ht'.session] at hf hf'
      obtain ⟨old, hold, htable, hcurrent⟩ := exists_stamp_of_recorded hx.tabled.tabled htables
        (hx.recorded ev (Option.mem_toList.1 hev)) hf
      rw [← hpath] at hcurrent
      obtain ⟨new, hnew, hfollows⟩ := hx.tabled.follows_run hp hl.2 ht'.session hev' htable hf' hn
        hcurrent
      exact ⟨old, new, hold, hnew, hfollows⟩

/-- Ordered events of one path with one version have one content. -/
theorem Ordered.content_eq {ev ev' : Event} (h' : Ordered d h name ev ev')
    (hd : d.Tells ev.source ev'.source) {file file' : String} (hf : file ∈ h.tableOf? name ev.build)
    (hf' : file' ∈ h.tableOf? name ev'.build) (hn : Path.names file' = Path.names file)
    (hpath : ev'.path = ev.path)
    (hv : ev'.emission.unit.version = ev.emission.unit.version) :
    ev'.source.content ev'.path = ev.source.content ev.path := by
  obtain ⟨old, new, hold, hnew, hfollows⟩ := h' file hf file' hf' hn hpath
  unfold Event.stamp? at hold hnew
  obtain ⟨content, hc, rfl⟩ := Option.map_eq_some_iff.1 hold
  obtain ⟨content', hc', rfl⟩ := Option.map_eq_some_iff.1 hnew
  have hstamp := hfollows.eq_of_version_eq hv.symm
  have hseparates := hd.injective (.inr ⟨_, content', hc', rfl⟩) (.inl ⟨_, content, hc, rfl⟩)
  rw [hc, hc', Digest.ofText_inj hseparates (congrArg Stamp.hash hstamp)]

/-! ## Sessions that were just started -/

theorem tabled_started {w : World} {name : String} {directory : Option String}
    (hb : ∀ dir ∈ directory, D dir) (ho : ∀ dir, D dir → w.disk.Orderly dir) :
    (started w name directory : Host σ).Tabled D name 1
      (.new ((directory.map Cache.onDisk).getD .inMemory)) where
  session := by
    unfold started session? openSession
    dsimp only
    rw [KeyMap.get?_insert_self]
    rfl
  sole m p hm := by cases hm
  orderly := ho
  tabled := by
    refine .new _ (fun dir hd => ?_) _
    cases directory with
    | none => cases hd
    | some dir' => cases hd; exact hb dir rfl

theorem Along.and {P Q : Host σ → Step → Prop} (hp : h.Along d e P l) (hq : h.Along d e Q l) :
    h.Along d e (fun h x => P h x ∧ Q h x) l := by
  induction l generalizing h with
  | nil => trivial
  | cons x l ih => exact ⟨⟨hp.1, hq.1⟩, ih hp.2 hq.2⟩

theorem Along.steady (ha : h.Along d e (Among D name) l) (hr : h.Along d e (Regular d e) l) :
    h.Along d e (Steady D d e name) l := (ha.and hr).mono fun _ _ hx => ⟨hx.1, hx.2⟩

theorem Along.append {P : Host σ → Step → Prop} {l₁ l₂ : List Step}
    (h' : h.Along d e P (l₁ ++ l₂)) :
    h.Along d e P l₁ ∧ (h.run d e l₁).1.Along d e P l₂ := by
  induction l₁ generalizing h with
  | nil => exact ⟨trivial, h'⟩
  | cons x l₁ ih => exact ⟨⟨h'.1, (ih h'.2).1⟩, (ih h'.2).2⟩

theorem run_append (h : Host σ) (l₁ l₂ : List Step) :
    (h.run d e (l₁ ++ l₂)).1 = ((h.run d e l₁).1.run d e l₂).1 := by
  induction l₁ generalizing h with
  | nil => rfl
  | cons x l₁ ih => exact ih _

/-- **A version identifies a content**, in a run of one session whose emits go through the newest
slot with their table: two events of one path, through slots whose records are in one file, and with
one version, have one content, if the digest tells apart what is hashed in the run. And no table
loses a record or gets a lower version. -/
theorem versions_identify (hp : d.Plain) {w : World} {directory : Option String}
    (hd : d.FaithfulOn (((started w name directory).events d e l).Hashed d))
    (hb : ∀ dir ∈ directory, D dir) (ho : ∀ dir, D dir → w.disk.Orderly dir)
    (hl : (started w name directory).Along d e (Steady D d e name) l) :
    ((started w name directory).events d e l).Pairwise (fun ev ev' =>
      ∀ file ∈ ((started w name directory).run d e l).1.tableOf? name ev.build,
      ∀ file' ∈ ((started w name directory).run d e l).1.tableOf? name ev'.build,
        Path.names file' = Path.names file → ev'.path = ev.path →
        ev'.emission.unit.version = ev.emission.unit.version →
        ev'.source.content ev'.path = ev.source.content ev.path) ∧
    ∀ l₁ l₂, l = l₁ ++ l₂ → ∀ file, Slot.IsTable D file →
      (Tracker.load ((started w name directory).run d e l₁).1.world.disk file).Precedes
        (Tracker.load ((started w name directory).run d e l).1.world.disk file) := by
  have ht : (started w name directory : Host σ).Tabled D name 1 _ := tabled_started hb ho
  constructor
  · refine (ht.ordered_run hp hl).imp_of_mem fun hev hev' h' file hf file' hf' hn hpath hv => ?_
    exact h'.content_eq (Log.tells hd hev hev') hf hf' hn hpath hv
  · rintro l₁ l₂ rfl file hf
    obtain ⟨hl₁, hl₂⟩ := hl.append
    obtain ⟨s₁, ht₁, -⟩ := ht.run hp hl₁
    obtain ⟨-, -, -, hload⟩ := ht₁.run hp hl₂
    rw [run_append]
    exact hload file hf

/-! ## A session that turns back -/

/-- The table, the path, the version and the content of an event. -/
def tell (h : Host σ) (name : String) (ev : Event) :
    Option String × String × UInt64 × Option String :=
  (h.tableOf? name ev.build, ev.path, ev.emission.unit.version, ev.source.content ev.path)

/-- A host with a session on a cache directory. -/
def onB : Host Unit := started .empty "" (some "b")

/-- A session turns away, and a build that was made before emits a file. Then the session turns
back, and another build emits the file as it is. -/
def turningBack : List Step :=
  [.edit "a.ts" (some "x"), .register "" "m" ["a.ts"] .live {}, .bind "" "c",
    .emit "m" "a.ts" none, .bind "" "b", .register "" "k" ["a.ts"] .live {}, .emit "k" "a.ts" none]

theorem run_turningBack :
    onB.Along (.brief usualTail) sameCompiler (Regular (.brief usualTail) sameCompiler)
      turningBack ∧
    (onB.events (.brief usualTail) sameCompiler turningBack).map
      ((onB.run (.brief usualTail) sameCompiler turningBack).1.tell "") =
      [(some "b/versions/os.json", "a.ts", 1, some "x"),
        (some "b/versions/os.json", "a.ts", 1, some "x")] :=
  ⟨by decide +kernel, by decide +kernel⟩

/-- What the builds of a session that turns back tell by their versions. -/
theorem versions_identify_turningBack :
    let h := (onB.run (.brief usualTail) sameCompiler turningBack).1
    let log := onB.events (.brief usualTail) sameCompiler turningBack
    log.map (h.tell "") =
      [(some "b/versions/os.json", "a.ts", 1, some "x"),
        (some "b/versions/os.json", "a.ts", 1, some "x")] ∧
    log.Pairwise (fun ev ev' =>
      ∀ file ∈ h.tableOf? "" ev.build, ∀ file' ∈ h.tableOf? "" ev'.build,
        Path.names file' = Path.names file → ev'.path = ev.path →
        ev'.emission.unit.version = ev.emission.unit.version →
        ev'.source.content ev'.path = ev.source.content ev.path) ∧
    ∀ l₁ l₂, turningBack = l₁ ++ l₂ → ∀ file, Slot.IsTable (· ∈ ["b", "c"]) file →
      (Tracker.load (onB.run (.brief usualTail) sameCompiler l₁).1.world.disk file).Precedes
        (Tracker.load h.world.disk file) := by
  have hamong : onB.Along (.brief usualTail) sameCompiler (Among (· ∈ ["b", "c"]) "")
      turningBack :=
    ⟨trivial, rfl, ⟨rfl, by simp⟩, trivial, ⟨rfl, by simp⟩, rfl, trivial, trivial⟩
  obtain ⟨hregular, htold⟩ := run_turningBack
  refine ⟨htold, versions_identify (Digest.brief_plain _) ((Digest.brief_faithful _).on _) (by simp)
    (fun dir hdir => ?_) (hamong.steady hregular)⟩
  refine Disk.linkless_empty.orderly ?_
  rcases List.mem_cons.1 hdir with rfl | hdir
  · decide
  · rw [List.mem_singleton.1 hdir]
    decide

/-- A session turns away and back, so that another build has a slot of its own. That build emits two
contents of a file, and then the first one emits the last of them. -/
def mixing : List Step :=
  [.register "" "m" ["a.ts"] .live {}, .bind "" "c", .bind "" "b",
    .register "" "k" ["a.ts"] .live {}, .edit "a.ts" (some "x"), .emit "k" "a.ts" none,
    .edit "a.ts" (some "y"), .emit "k" "a.ts" none, .emit "m" "a.ts" none]

/-- The version of the file in the table after some steps. -/
def tabledAfter (l : List Step) : Option UInt64 :=
  ((Tracker.load (onB.run (.brief usualTail) sameCompiler l).1.world.disk
    (Slot.tablePath "b" "os")).current "a.ts").map (·.version)

theorem among_mixing :
    onB.Along (.brief usualTail) sameCompiler (Among (· ∈ ["b", "c"]) "") mixing :=
  ⟨rfl, ⟨rfl, by simp⟩, ⟨rfl, by simp⟩, rfl, trivial, trivial, trivial, trivial, trivial, trivial⟩

theorem run_mixing :
    onB.Along (.brief usualTail) sameCompiler (Writes (.brief usualTail) sameCompiler) mixing ∧
    (onB.events (.brief usualTail) sameCompiler mixing).map
      ((onB.run (.brief usualTail) sameCompiler mixing).1.tell "") =
      [(some "b/versions/os.json", "a.ts", 1, some "x"),
        (some "b/versions/os.json", "a.ts", 2, some "y"),
        (some "b/versions/os.json", "a.ts", 1, some "y")] ∧
    tabledAfter (mixing.take 8) = some 2 ∧ tabledAfter mixing = some 1 :=
  ⟨by decide +kernel, by decide +kernel⟩

/-- **A version does not identify a content if an older slot is used after a newer one was made on
the same cache directory**: each counts for itself, and the version in their table gets lower. -/
theorem versions_mix : (Digest.brief usualTail).Faithful ∧
    onB.Along (.brief usualTail) sameCompiler (fun h x =>
      h.Among (· ∈ ["b", "c"]) "" x ∧ h.Writes (.brief usualTail) sameCompiler x) mixing ∧
    (∃ ev ∈ onB.events (.brief usualTail) sameCompiler mixing,
      ∃ ev' ∈ onB.events (.brief usualTail) sameCompiler mixing,
        (onB.run (.brief usualTail) sameCompiler mixing).1.tell "" ev =
          (some "b/versions/os.json", "a.ts", 1, some "x") ∧
        (onB.run (.brief usualTail) sameCompiler mixing).1.tell "" ev' =
          (some "b/versions/os.json", "a.ts", 1, some "y")) ∧
    tabledAfter (mixing.take 8) = some 2 ∧ tabledAfter mixing = some 1 := by
  obtain ⟨hwrites, htold, hbefore, hafter⟩ := run_mixing
  have hmem := fun t => List.mem_map (b := t)
    (l := onB.events (.brief usualTail) sameCompiler mixing)
    (f := (onB.run (.brief usualTail) sameCompiler mixing).1.tell "")
  rw [htold] at hmem
  obtain ⟨ev, hev, htell⟩ := (hmem (some "b/versions/os.json", "a.ts", 1, some "x")).1 (by simp)
  obtain ⟨ev', hev', htell'⟩ := (hmem (some "b/versions/os.json", "a.ts", 1, some "y")).1 (by simp)
  exact ⟨Digest.brief_faithful _, among_mixing.and hwrites, ⟨ev, hev, ev', hev', htell, htell'⟩,
    hbefore, hafter⟩

end Host

end CompileCache
