import CompileCache.Proofs.Mini.Footprint
import CompileCache.Proofs.Run.Progress
import CompileCache.Proofs.Run.Provenance

/-!
# Matches — emissions of the small language against a new compiler

* `Mini.Loaded`, `Mini.keeps_loaded`: what the compiler answers depends on the loaded working set.
* `Event.SameText`: two events with the same text to compile, and the same name for it.
* `agreeOnCode_of_actionFor`, `agreeOnModules_of_actionFor`: what a record says about the sources
  that it was made of.
* `Mini.Matches`: an emission is what a new compiler makes of the path.
* **`Mini.matches_of_grounded`**: all emissions match, but those of stored artifacts;
  **`Mini.matches_or_repeats_of_grounded`**: these match too, or repeat an earlier one that does.
-/

namespace CompileCache

variable {d : Digest} {log : Log} {ev' ev : Event} {u : Artifact}

/-! ## Events with the same text -/

/-- Two events with the same text to compile, and the same name for it. -/
structure Event.SameText (ev' ev : Event) : Prop where
  path : ev'.path = ev.path
  moduleName : ev'.moduleName = ev.moduleName
  options : ev'.build.set.options.emit = ev.build.set.options.emit
  content : ev'.source.content ev'.path = ev.source.content ev.path

theorem Event.SameText.fingerprint?_eq (h : ev'.SameText ev) :
    ev'.fingerprint? d = ev.fingerprint? d := by
  unfold Event.fingerprint?
  rw [h.content, h.options, h.moduleName]

/-- Equal fingerprints stand for the same text; in a log with one path for each also for the same
path. -/
theorem Event.Offers.sameText (hd : d.FaithfulOn (log.Hashed d)) (h : ev'.Offers d ev u)
    (hs : log.Sized d) (hp : log.SinglePath d) (hm' : ev' ∈ log) (hm : ev ∈ log) :
    ev'.SameText ev := by
  obtain ⟨-, ⟨fp', fp, hf', hf, hkey⟩, -⟩ := h
  have hsized' := hs ev' hm' fp' hf'
  have hsized := hs ev hm fp hf
  have hkeys := hd.injective ⟨ev', hm', .inr ⟨fp', hf', rfl⟩⟩ ⟨ev, hm, .inr ⟨fp, hf, rfl⟩⟩
  obtain ⟨content', hc', rfl⟩ := Option.map_eq_some_iff.1 hf'
  obtain ⟨content, hc, rfl⟩ := Option.map_eq_some_iff.1 hf
  have heq := Fingerprint.eq_of_key_eq hkeys hsized' hsized hkey
  have htexts := hd.injective ⟨ev', hm', .inl ⟨_, content', hc', rfl⟩⟩
    ⟨ev, hm, .inl ⟨_, content, hc, rfl⟩⟩
  obtain ⟨rfl, ho, hname⟩ := Fingerprint.of_inj htexts heq
  rw [heq] at hf'
  exact ⟨hp ev' hm' ev hm _ hf' hf, hname, ho, hc'.trans hc.symm⟩

/-! ## What records say -/

namespace Mini

section Records

variable {s t : Source} {r : References} {roots : List String}

/-- An artifact that is not compiled anew was made of sources that agree on all that code depends
on. -/
theorem agreeOnCode_of_actionFor (hd : d.Tells s t)
    (hu : u.dependencies.hashes = r.hashes d s) {action : Action}
    (ha : u.actionFor d roots t = action) (hn : action ≠ .recompile) : AgreeOnCode s t r := by
  subst ha
  have htypings : t.typingsDiffer d roots u.dependencies.typings = false := by
    by_contra h
    refine hn ?_
    unfold Artifact.actionFor Dependencies.staleness
    rw [if_pos (Bool.of_not_eq_false h)]
    rfl
  have hfiles : t.changed d u.dependencies.refFiles = false := by
    by_contra h
    refine hn ?_
    unfold Artifact.actionFor Dependencies.staleness
    rw [htypings, if_pos (Bool.of_not_eq_false h)]
    rfl
  refine ⟨fun q hq => Source.agree_of_not_changed hd (congrArg Hashes.refFiles hu) hfiles hq, ?_⟩
  intro set hset q hq
  have hstamps : u.dependencies.typings.map stampedHashes = some (set.hashes d s) := by
    have h := congrArg Hashes.typings hu
    change _ = r.typings.map _ at h
    rw [hset] at h
    exact h
  obtain ⟨stamps, hst, hh⟩ := Option.map_eq_some_iff.1 hstamps
  rw [hst] at htypings
  exact Source.agree_of_not_changed hd hh (Bool.or_eq_false_iff.1 htypings).2 hq

/-- An artifact that is returned as it is was made of sources that agree on the modules too. -/
theorem agreeOnModules_of_actionFor (hd : d.Tells s t)
    (hu : u.dependencies.hashes = r.hashes d s) (ha : u.actionFor d roots t = .reuse) :
    AgreeOnModules s t r := by
  have hmodules : t.changed d u.dependencies.modules = false := by
    by_contra h
    unfold Artifact.actionFor Dependencies.staleness at ha
    rw [if_pos (Bool.of_not_eq_false h)] at ha
    split at ha
    · cases ha
    · split at ha <;> cases ha
  exact fun q hq => Source.agree_of_not_changed hd (congrArg Hashes.modules hu) hmodules hq

theorem covers_of_typings (ht : r.typings = typings? s roots) : r.Covers roots := by
  unfold typings? at ht
  constructor
  · intro hn
    rw [hn] at ht
    split at ht
    · next hroots => exact List.isEmpty_iff.1 hroots
    · cases ht
  · intro files hf root hroot
    rw [hf] at ht
    split at ht
    · cases ht
    · cases ht
      exact Source.root_mem_closure hroot

/-- An artifact is returned as it is if its sources agree on all that was looked at, and it misses
no import. -/
theorem actionFor_eq_reuse (hu : u.dependencies.hashes = r.hashes d s)
    (ht : r.typings = typings? s roots) (h : AgreeOnCode s t r) (hm : AgreeOnModules s t r)
    (hn : u.diagnostics.hasUnresolved = false) : u.actionFor d roots t = .reuse := by
  have hfresh : u.dependencies.staleness d roots t = .fresh :=
    Dependencies.staleness_eq_fresh hu (covers_of_typings ht) h.refFiles hm h.typings
  unfold Artifact.actionFor
  rw [hfresh]
  change (if u.diagnostics.hasUnresolved then Action.refreshDiagnostics else .reuse) = .reuse
  rw [hn, if_neg (by decide)]

end Records

/-! ## The compiler -/

/-- A compiler is loaded with a working set. -/
def Loaded (c : Compiler) (set : WorkingSet) : Prop := c.set = set

theorem keeps_loaded : engine.Keeps Loaded where
  load _ _ := rfl
  compile h _ _ _ := h
  diagnose h _ _ := h

theorem compileWith_of_loaded {c : Compiler} {set : WorkingSet} (h : Loaded c set) {view : View}
    {path : String} {moduleName : Option String} {out : Output}
    (ho : (engine.compile view c path moduleName).1 = .ok out) :
    compileWith view set path moduleName = .ok out := by
  rw [← show c.set = set from h]
  exact ho

theorem exists_compileWith_of_loaded {c : Compiler} {set : WorkingSet} (h : Loaded c set)
    {view : View} {path : String} {report : Report} (moduleName : Option String)
    (hr : (engine.diagnose view c path).1 = .ok report) :
    ∃ out, compileWith view set path moduleName = .ok out ∧ out.toReport = report := by
  change diagnoseWith view c.set path = .ok report at hr
  rw [show c.set = set from h, diagnoseWith_eq_map view set path moduleName] at hr
  cases hc : compileWith view set path moduleName with
  | error err => rw [hc] at hr; cases hr
  | ok out =>
    rw [hc] at hr
    exact ⟨out, rfl, Except.ok.inj hr⟩

theorem accepts {view : View} {set : WorkingSet} {path content : String}
    {moduleName : Option String} (hp : set.files.contains path = true)
    (hc : (view set.origin).content path = some content)
    (hx : (Program.read content).statements.contains .crash = false) :
    engine.Accepts Loaded view set path moduleName := by
  have hcompile : ∀ c, Loaded c set →
      ∃ out, (engine.compile view c path moduleName).1 = .ok out := by
    intro c hl
    cases hl
    exact ⟨_, compileWith_eq_ok_iff.2 ⟨hp, content, hc, hx, rfl⟩⟩
  refine ⟨hcompile, fun c hl => ?_⟩
  obtain ⟨out, ho⟩ := hcompile c hl
  refine ⟨out.toReport, ?_⟩
  change compileWith view c.set path moduleName = .ok out at ho
  change diagnoseWith view c.set path = .ok _
  rw [diagnoseWith_eq_map view c.set path moduleName, ho]
  rfl

theorem fresh_eq_ok (ev : Event) {content : String} (hp : ev.build.contains ev.path = true)
    (hc : ev.source.content ev.path = some content)
    (hx : (Program.read content).statements.contains .crash = false) :
    ev.fresh engine = .ok (outputOf ev.build.set.options ev.source ev.path (Program.read content)
      ev.moduleName) :=
  compileWith_eq_ok_iff.2 ⟨hp, content, hc, hx, rfl⟩

theorem exists_fresh (h : ev'.SameText ev) (hc : ev.build.contains ev.path = true) {out' : Output}
    (hf : ev'.fresh engine = .ok out') :
    ∃ content, ev.source.content ev.path = some content ∧
      out' = outputOf ev'.build.set.options ev'.source ev.path (Program.read content)
        ev.moduleName ∧
      ev.fresh engine = .ok (outputOf ev.build.set.options ev.source ev.path (Program.read content)
        ev.moduleName) := by
  obtain ⟨-, content, hcontent', hcrash, rfl⟩ := compileWith_eq_ok_iff.1 hf
  have hcontent : ev.source.content ev.path = some content := h.content.symm.trans hcontent'
  refine ⟨content, hcontent, ?_, ?_⟩
  · rw [h.path, h.moduleName]
    rfl
  · exact fresh_eq_ok ev hc hcontent hcrash

/-! ## Emissions and new compilers -/

/-- An emission is what a new compiler makes of the path. -/
structure Matches (d : Digest) (ev : Event) (out : Output) : Prop where
  fresh : ev.fresh engine = .ok out
  code : ev.emission.unit.code = out.code
  diagnostics : ev.emission.unit.diagnostics = out.diagnostics
  dependencies : ev.emission.unit.dependencies.hashes = out.references.hashes d ev.source

/-- An emission is what an earlier event left, and all that was looked at then is the same now. -/
structure Repeats (d : Digest) (ev' ev : Event) (out' : Output) : Prop where
  earlier : Matches d ev' out'
  text : ev'.SameText ev
  contained : ev.build.contains ev.path = true
  unit : ev.emission.unit = { ev'.emission.unit with version := ev.emission.unit.version }
  code : AgreeOnCode ev'.source ev.source out'.references
  modules : AgreeOnModules ev'.source ev.source out'.references

theorem matches_of_compiles (he : ev.Explained d engine Loaded log)
    (hc : ev.emission.outcome.compiles = true) : ∃ out, Matches d ev out := by
  cases he.account with
  | @compiled c out hl ho hr hpatched hpath hcode hdiagnostics hdependencies =>
    exact ⟨out, compileWith_of_loaded hl ho, hcode, hdiagnostics, hdependencies⟩
  | patched hs ha hl ho hpatched => rw [hpatched] at hc; cases hc
  | reused hs ha hr => rw [hr] at hc; cases hc

/-- **An explained emission matches, or repeats an earlier one that does.** -/
theorem matches_or_repeats (hd : d.FaithfulOn ((log ++ [ev]).Hashed d))
    (he : ev.Explained d engine Loaded log) (hs : (log ++ [ev]).Sized d)
    (hp : (log ++ [ev]).SinglePath d)
    (ih : ∀ ev' ∈ log, ev'.emission.outcome ≠ .reuse → ∃ out', Matches d ev' out') :
    (∃ out, Matches d ev out) ∨
      (ev.emission.outcome = .reuse ∧ ∃ ev' ∈ log, ∃ out', Repeats d ev' ev out') := by
  have found : ∀ u, (∃ ev' ∈ log, ev'.Offers d ev u) → ∃ ev' ∈ log, ∃ out',
      Matches d ev' out' ∧ ev'.SameText ev ∧
        ev'.emission.unit = { u with version := ev'.emission.unit.version } := by
    rintro u ⟨ev', hev', ho⟩
    obtain ⟨out', hout'⟩ := ih ev' hev' ho.1
    exact ⟨ev', hev', out', hout', ho.sameText hd hs hp (List.mem_append_left _ hev')
      (List.mem_append_right _ (List.mem_singleton.2 rfl)), ho.2.2⟩
  have tells : ∀ ev' ∈ log, d.Tells ev'.source ev.source := fun ev' hev' =>
    Log.tells hd (List.mem_append_left _ hev') (List.mem_append_right _ List.mem_cons_self)
  cases he.account with
  | @compiled c out hl ho hr hpatched hpath hcode hdiagnostics hdependencies =>
    exact .inl ⟨out, compileWith_of_loaded hl ho, hcode, hdiagnostics, hdependencies⟩
  | @patched stored c report hst ha hl ho hpatched hpath hcode hdiagnostics hdependencies =>
    obtain ⟨ev', hev', out', hout', htext, hunit⟩ := found stored hst
    obtain ⟨content, hcontent, hearlier, hnow⟩ := exists_fresh htext he.contained hout'.fresh
    obtain ⟨out, hout, rfl⟩ := exists_compileWith_of_loaded hl ev.moduleName ho
    have hfresh : ev.fresh engine = .ok out := hout
    have hagree : AgreeOnCode ev'.source ev.source out'.references := by
      refine agreeOnCode_of_actionFor (tells ev' hev') ?_ ha (by decide)
      rw [← hout'.dependencies, hunit]
    refine .inl ⟨out, hfresh, ?_, hdiagnostics, hdependencies⟩
    -- only the code is not the new compiler's own: it was kept, and depends on what did not change
    rw [hnow] at hfresh
    cases hfresh
    rw [hearlier] at hagree hout'
    rw [code_outputOf_congr htext.options hagree, ← hout'.code, hunit, hcode]
  | @reused stored hst ha hr hu =>
    obtain ⟨ev', hev', out', hout', htext, hunit⟩ := found stored hst
    have hdeps : stored.dependencies.hashes = out'.references.hashes d ev'.source := by
      rw [← hout'.dependencies, hunit]
    refine .inr ⟨hr, ev', hev', out', hout', htext, he.contained, ?_, ?_, ?_⟩
    · rw [hunit, hu]
    · exact agreeOnCode_of_actionFor (tells ev' hev') hdeps ha (by decide)
    · exact agreeOnModules_of_actionFor (tells ev' hev') hdeps ha

/-- **All emissions match, but those of stored artifacts.** -/
theorem matches_of_grounded (hd : d.FaithfulOn (log.Hashed d))
    (hg : log.Grounded d engine Loaded) (hs : log.Sized d) (hp : log.SinglePath d) (hev : ev ∈ log)
    (hr : ev.emission.outcome ≠ .reuse) : ∃ out, Matches d ev out := by
  -- on the log: what an event found was left by one that matches, however often it was patched
  induction hg generalizing ev with
  | nil => cases hev
  | @snoc log ev₀ hg he ih =>
    have before : ∀ ev' ∈ log, ev'.emission.outcome ≠ .reuse → ∃ out', Matches d ev' out' :=
      fun ev' hev' hr' => ih (hd.mono fun b hb => hb.mono fun x hx => List.mem_append_left _ hx)
        (hs.mono fun x hx => List.mem_append_left _ hx)
        (hp.mono fun x hx => List.mem_append_left _ hx) hev' hr'
    rcases List.mem_append.1 hev with hev | hev
    · exact before ev hev hr
    · cases List.mem_singleton.1 hev
      rcases matches_or_repeats hd he hs hp before with h | ⟨hreuse, -⟩
      · exact h
      · exact absurd hreuse hr

/-- **Every emission of a log matches, or repeats an earlier one that does.** -/
theorem matches_or_repeats_of_grounded (hd : d.FaithfulOn (log.Hashed d))
    (hg : log.Grounded d engine Loaded) (hs : log.Sized d) (hp : log.SinglePath d)
    {pre post : Log} (hl : log = pre ++ ev :: post) :
    (∃ out, Matches d ev out) ∨
      (ev.emission.outcome = .reuse ∧ ∃ ev' ∈ pre, ∃ out', Repeats d ev' ev out') := by
  subst hl
  obtain ⟨hg', he⟩ := hg.split
  have within : ∀ x ∈ pre ++ [ev], x ∈ pre ++ ev :: post := by
    intro x hx
    rcases List.mem_append.1 hx with hx | hx
    · exact List.mem_append_left _ hx
    · rw [List.mem_singleton.1 hx]
      exact List.mem_append_right _ List.mem_cons_self
  have hd' : d.FaithfulOn ((pre ++ [ev]).Hashed d) := hd.mono fun b hb => hb.mono within
  have hs' := hs.mono within
  have hp' := hp.mono within
  exact matches_or_repeats hd' he hs' hp' fun ev' hev' hr' =>
    matches_of_grounded (hd'.mono fun b hb => hb.mono fun x hx => List.mem_append_left _ hx) hg'
      (hs'.mono fun x hx => List.mem_append_left _ hx)
      (hp'.mono fun x hx => List.mem_append_left _ hx) hev' hr'

end Mini

end CompileCache
