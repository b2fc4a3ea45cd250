import CompileCache.Proofs.Session.Tiers

/-!
# Log — the emissions of a run

* `Request`, `Event`: what was to be emitted, and what came of it in which world.
* **`Session.snippet_cases`**: a snippet is an emit of the build that it registers, or is refused.
* `Host.request?`: what a step is to emit; `Host.event?`, `Host.events`: the emissions of steps.
* **`Host.emissions_run`**: the events of a run are its successful answers, one by one.
* `Host.Honest`: no step of a run puts an entry where none was.
* `Log.SinglePath`, `Log.Sized`: what a log says about the fingerprints of its events.
* `Log.Hashed`: the byte sequences that a digest has to tell apart for a log.
-/

namespace CompileCache

/-- What is to be emitted. -/
structure Request where
  build : Build
  path : String
  moduleName : Option String

/-- A request that was answered by an emission, in a world. -/
structure Event extends Request where
  world : World
  emission : Emission

namespace Event

variable {σ : Type}

/-- The contents behind each origin. -/
def view (ev : Event) : View := Origin.source ev.world

/-- The contents of the build. -/
def source (ev : Event) : Source := ev.build.set.origin.source ev.world

/-- The fingerprint that the artifact has in caches. -/
def fingerprint? (d : Digest) (ev : Event) : Option Fingerprint :=
  (ev.source.content ev.path).map (.of d · ev.build.set.options.emit ev.moduleName)

/-- A new compiler that is loaded with the build. -/
def compiler (e : Engine σ) (ev : Event) : σ :=
  e.load (e.create ev.build.set.options.arch) ev.build.set

/-- What a new compiler makes of the path at that moment. -/
def fresh (e : Engine σ) (ev : Event) : Except EngineError Output :=
  (e.compile ev.view (ev.compiler e) ev.path ev.moduleName).1

/-- What a new compiler reports for the path at that moment. -/
def freshReport (e : Engine σ) (ev : Event) : Except EngineError Report :=
  (e.diagnose ev.view (ev.compiler e) ev.path).1

end Event

/-- Events in the order in which they happened. -/
abbrev Log := List Event

namespace Log

/-- A fingerprint stands for one path only. -/
def SinglePath (d : Digest) (log : Log) : Prop :=
  ∀ ev ∈ log, ∀ ev' ∈ log, ∀ fp, ev.fingerprint? d = some fp → ev'.fingerprint? d = some fp →
    ev.path = ev'.path

/-- The lengths of all that fingerprints stand for fit eight bytes. -/
def Sized (d : Digest) (log : Log) : Prop :=
  ∀ ev ∈ log, ∀ fp, ev.fingerprint? d = some fp → fp.Sized

/-- Some bytes are a content of the source of an event, or those of its fingerprint. -/
def Hashed (d : Digest) (log : Log) (b : ByteArray) : Prop :=
  ∃ ev ∈ log, ev.source.HasContent b ∨ ∃ fp, ev.fingerprint? d = some fp ∧ b = fp.bytes

variable {d : Digest} {log log' : Log}

theorem SinglePath.mono (h : log'.SinglePath d) (hl : ∀ ev ∈ log, ev ∈ log') :
    log.SinglePath d :=
  fun ev hev ev' hev' => h ev (hl ev hev) ev' (hl ev' hev')

theorem Sized.mono (h : log'.Sized d) (hl : ∀ ev ∈ log, ev ∈ log') : log.Sized d :=
  fun ev hev => h ev (hl ev hev)

theorem Hashed.mono {b : ByteArray} (h : log.Hashed d b) (hl : ∀ ev ∈ log, ev ∈ log') :
    log'.Hashed d b := by
  obtain ⟨ev, hev, hb⟩ := h
  exact ⟨ev, hl ev hev, hb⟩

/-- A digest that is faithful on what is hashed for a log tells the sources of its events apart. -/
theorem tells (hd : d.FaithfulOn (log.Hashed d)) {ev ev' : Event} (hev : ev ∈ log)
    (hev' : ev' ∈ log) : d.Tells ev.source ev'.source :=
  hd.mono fun _ hb => hb.elim (fun h => ⟨ev, hev, .inl h⟩) fun h => ⟨ev', hev', .inl h⟩

end Log

/-! ## Events of steps -/

namespace Session

variable {σ : Type} (d : Digest) (e : Engine σ)

/-- The registration that a snippet makes. -/
def registerSnippet (s : Session σ) (disk : Disk) (content : String) (path : Option String)
    (options : Options) : Except BuildError Build × Session σ × List Call :=
  s.register e disk [pathOfSnippet d content path options]
    (.table (.ofList [(pathOfSnippet d content path options, content)])) options

variable {d e} {s s' : Session σ} {w : World} {content : String} {path : Option String}
  {options : Options} {calls : List Call}

theorem snippet_of_ok {b : Build}
    (h : s.registerSnippet d e w.disk content path options = (.ok b, s', calls))
    (moduleName : Option String) :
    let r := s'.emit d e w b (pathOfSnippet d content path options) moduleName
    s.snippet d e w content path moduleName options = { r with calls := calls ++ r.calls } := by
  unfold snippet
  unfold registerSnippet at h
  dsimp only
  rw [h]

theorem snippet_of_error {err : BuildError}
    (h : s.registerSnippet d e w.disk content path options = (.error err, s', calls))
    (moduleName : Option String) :
    s.snippet d e w content path moduleName options = ⟨.error err, s', w.disk, calls⟩ := by
  unfold snippet
  unfold registerSnippet at h
  dsimp only
  rw [h]

/-- A snippet is an emit of the build that it registers, or else its options are refused and nothing
changes. -/
theorem snippet_cases (d : Digest) (e : Engine σ) (s : Session σ) (w : World) (content : String)
    (path moduleName : Option String) (options : Options) :
    (∃ err, s.registerSnippet d e w.disk content path options = (.error err, s, []) ∧
      s.snippet d e w content path moduleName options = ⟨.error err, s, w.disk, []⟩) ∨
    ∃ b s' calls, s.registerSnippet d e w.disk content path options = (.ok b, s', calls) ∧
      s.snippet d e w content path moduleName options =
        let r := s'.emit d e w b (pathOfSnippet d content path options) moduleName
        { r with calls := calls ++ r.calls } := by
  rcases register_cases e s w.disk [pathOfSnippet d content path options]
      (.table (.ofList [(pathOfSnippet d content path options, content)])) options with
    ⟨err, hr⟩ | ⟨b, s', calls, hr⟩
  · exact .inl ⟨err, hr, snippet_of_error hr moduleName⟩
  · exact .inr ⟨b, s', calls, hr, snippet_of_ok hr moduleName⟩

end Session

namespace Host

variable {σ : Type} (d : Digest) (e : Engine σ)

/-- What a step is to emit. -/
def request? (h : Host σ) : Step → Option Request
  | .emit build path moduleName =>
    (h.builds.get? build).map fun p => ⟨p.2, path, moduleName⟩
  | .snippet session content path moduleName options =>
    (h.session? session).bind fun p =>
      (p.2.registerSnippet d e h.world.disk content path options).1.toOption.map fun b =>
        ⟨b, Session.pathOfSnippet d content path options, moduleName⟩
  | _ => none

/-- The event of a step, if it emits something. -/
def event? (h : Host σ) (x : Step) : Option Event :=
  (h.request? d e x).bind fun q => (h.step d e x).2.1.emission?.map fun em => ⟨q, h.world, em⟩

/-- The events of some steps. -/
def events (h : Host σ) : List Step → Log
  | [] => []
  | x :: rest => (h.event? d e x).toList ++ (h.step d e x).1.events rest

variable {d e} in
theorem request?_emit (h : Host σ) (build path : String) (moduleName : Option String) :
    h.request? d e (.emit build path moduleName) =
      (h.builds.get? build).map fun p => ⟨p.2, path, moduleName⟩ := rfl

variable {d e} in
theorem request?_snippet (h : Host σ) (session content : String)
    (path moduleName : Option String) (options : Options) :
    h.request? d e (.snippet session content path moduleName options) =
      (h.session? session).bind fun p =>
        (p.2.registerSnippet d e h.world.disk content path options).1.toOption.map fun b =>
          ⟨b, Session.pathOfSnippet d content path options, moduleName⟩ := rfl

variable {d e} in
theorem request?_emit_of {h : Host σ} {build : String} {p : Nat × Build}
    (hb : h.builds.get? build = some p) (path : String) (moduleName : Option String) :
    h.request? d e (.emit build path moduleName) = some ⟨p.2, path, moduleName⟩ := by
  rw [request?_emit, hb]
  rfl

variable {d e} in
theorem request?_emit_of_none {h : Host σ} {build : String} (hb : h.builds.get? build = none)
    (path : String) (moduleName : Option String) :
    h.request? d e (.emit build path moduleName) = none := by
  rw [request?_emit, hb]
  rfl

section Snippet

variable {d e} {h : Host σ} {session content : String} {path : Option String} {options : Options}
  {i : Nat} {s s' : Session σ} {calls : List Call}

theorem request?_snippet_of_none (hs : h.session? session = none) (moduleName : Option String) :
    h.request? d e (.snippet session content path moduleName options) = none := by
  rw [request?_snippet, hs]
  rfl

variable (hs : h.session? session = some (i, s))
include hs

theorem request?_snippet_of_ok {b : Build}
    (hr : s.registerSnippet d e h.world.disk content path options = (.ok b, s', calls))
    (moduleName : Option String) :
    h.request? d e (.snippet session content path moduleName options) =
      some ⟨b, Session.pathOfSnippet d content path options, moduleName⟩ := by
  rw [request?_snippet, hs, Option.bind_some, hr]
  rfl

theorem request?_snippet_of_error {err : BuildError}
    (hr : s.registerSnippet d e h.world.disk content path options = (.error err, s', calls))
    (moduleName : Option String) :
    h.request? d e (.snippet session content path moduleName options) = none := by
  rw [request?_snippet, hs, Option.bind_some, hr]
  rfl

end Snippet

variable {d e} in
theorem event?_of_request?_none {h : Host σ} {x : Step} (hq : h.request? d e x = none) :
    h.event? d e x = none := by
  unfold event?
  rw [hq]
  rfl

variable {d e} in
theorem event?_of_request? {h : Host σ} {x : Step} {q : Request} (hq : h.request? d e x = some q) :
    h.event? d e x = (h.step d e x).2.1.emission?.map fun em => ⟨q, h.world, em⟩ := by
  unfold event?
  rw [hq]
  rfl

variable {d e} in
theorem emission?_of_request? {h : Host σ} {x : Step} {q : Request}
    (hq : h.request? d e x = some q) :
    (h.step d e x).2.1.emission? = (h.event? d e x).map (·.emission) := by
  rw [event?_of_request? hq]
  cases (h.step d e x).2.1.emission? <;> rfl

variable {d e} in
theorem emission?_of_request?_none {h : Host σ} {x : Step} (hq : h.request? d e x = none)
    (hx : (h.step d e x).2.1.emission? = none) :
    (h.step d e x).2.1.emission? = (h.event? d e x).map (·.emission) := by
  rw [event?_of_request?_none hq, hx]
  rfl

theorem emission?_within {h : Host σ} {name : String}
    {f : Nat → Session σ → Host σ × Answer × List Call}
    (hf : ∀ i s, (f i s).2.1.emission? = none) : (h.within name f).2.1.emission? = none := by
  unfold within
  split
  · rfl
  · exact hf _ _

theorem emission?_step (h : Host σ) (x : Step) :
    (h.step d e x).2.1.emission? = (h.event? d e x).map (·.emission) := by
  cases x with
  | edit | change | openSession => rfl
  | register | bind | clear | save | peek => exact emission?_within fun i s => rfl
  | emit build path moduleName =>
    cases hb : h.builds.get? build with
    | some p => exact emission?_of_request? (request?_emit_of hb path moduleName)
    | none =>
      refine emission?_of_request?_none (request?_emit_of_none hb path moduleName) ?_
      unfold step
      dsimp only
      rw [hb]
      rfl
  | snippet session content path moduleName options =>
    cases hs : h.session? session with
    | none =>
      refine emission?_of_request?_none (request?_snippet_of_none hs moduleName) ?_
      unfold step within
      dsimp only
      rw [hs]
      rfl
    | some p =>
      obtain ⟨i, s⟩ := p
      rcases s.snippet_cases d e h.world content path moduleName options with
        ⟨err, hr, hsnippet⟩ | ⟨b, s', calls, hr, -⟩
      · refine emission?_of_request?_none (request?_snippet_of_error hs hr moduleName) ?_
        unfold step within Host.snippet
        dsimp only
        rw [hs]
        dsimp only
        rw [hsnippet]
        rfl
      · exact emission?_of_request? (request?_snippet_of_ok hs hr moduleName)

theorem events_append (h : Host σ) (l l' : List Step) :
    h.events d e (l ++ l') = h.events d e l ++ (h.run d e l).1.events d e l' := by
  induction l generalizing h with
  | nil => rfl
  | cons x l ih =>
    rw [List.cons_append, events, events, ih, List.append_assoc]
    rfl

/-- **The events of a run are its successful answers, one by one.** -/
theorem emissions_run (h : Host σ) (l : List Step) :
    (h.run d e l).2.filterMap (·.1.emission?) = (h.events d e l).map (·.emission) := by
  induction l generalizing h with
  | nil => rfl
  | cons x l ih =>
    unfold run events
    dsimp only
    rw [List.filterMap_cons, emission?_step, ih, List.map_append]
    cases h.event? d e x <;> rfl

/-! ## Honest runs -/

/-- A step puts no entry where none was: nobody writes one but the sessions. -/
def HonestStep (h : Host σ) : Step → Prop
  | .change disk => ∀ x, disk.HasEntry x → h.world.disk.HasEntry x
  | .save .. => False
  | _ => True

/-- All steps of a run are honest. -/
def Honest (h : Host σ) : List Step → Prop
  | [] => True
  | x :: rest => h.HonestStep x ∧ (h.step d e x).1.Honest rest

end Host

end CompileCache
