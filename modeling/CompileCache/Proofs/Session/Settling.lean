import CompileCache.Proofs.Freshness.Matches
import CompileCache.Proofs.Run.Progress
import CompileCache.Proofs.Session.Plans

/-!
# Settling — an emit that is repeated at once

* `Engine.Thorough`: a compiler that reports the same whether it compiles or only checks, and looks
  at the ambient typings that are asked for; `Mini.thorough`.
* `Artifact.settledOutcome`: by which way an artifact is emitted that is in order.
* `Plan.answer_settled`: carried out on its own result, a plan changes nothing;
  **`Desk.emit_settled`**: neither does an emit.
* **`Mini.emit_emit`**: in all hosts that runs lead to, an emit that is repeated at once answers
  with the same artifact, and compiles nothing unless the cache is not asked.
-/

namespace CompileCache

variable {σ : Type}

/-- A compiler that reports the same whether it compiles or only checks, and that looks at the
ambient typings which its working set asks for. -/
structure Engine.Thorough (e : Engine σ) (L : σ → WorkingSet → Prop) : Prop
    extends e.Steady L where
  diagnose_eq_map : ∀ {s : σ} {set : WorkingSet}, L s set → ∀ view path moduleName,
    (e.diagnose view s path).1 = (e.compile view s path moduleName).1.map (·.toReport)
  covers : ∀ {s : σ} {set : WorkingSet}, L s set → ∀ {view path moduleName} {out : Output},
    (e.compile view s path moduleName).1 = .ok out → out.references.Covers set.options.types

/-- The way by which an artifact is emitted that is stored and in order. -/
def Artifact.settledOutcome (u : Artifact) (asked : Bool) : Outcome :=
  if asked = false then .uncached
  else if u.diagnostics.hasUnresolved then .patched
  else .reuse

variable {d : Digest} {s : Source} {roots : List String}

theorem planOf_of_fresh {u : Artifact} (h : u.dependencies.staleness d roots s = .fresh) :
    planOf d roots s true (some u) =
      if u.diagnostics.hasUnresolved then .patch u else .reuse u := by
  unfold planOf Artifact.actionFor
  dsimp only
  rw [h, if_neg (by decide)]
  unfold Staleness.decide
  cases u.diagnostics.hasUnresolved <;> rfl

theorem staleness_sealed {r : References} (t : Tracker) (hr : r.Covers roots) :
    (r.sealed (t.seen d s)).staleness d roots s = .fresh := by
  have hh : (r.sealed (t.seen d s)).hashes = r.hashes d s := by
    rw [← References.stamped_fst]
    exact References.hashes_stamped _ _ _
  exact Dependencies.staleness_eq_fresh hh hr (fun _ _ => rfl) (fun _ _ => rfl) fun _ _ _ _ => rfl

theorem Plan.answer_of_anew {path : String} {t : Tracker} {compiled : Except EngineError Output}
    {out : Output} (hc : compiled = .ok out) (hcovers : out.references.Covers roots) {u : Artifact}
    (hdiag : u.diagnostics = out.diagnostics)
    (hdeps : u.dependencies = out.references.sealed (t.seen d s)) :
    (planOf d roots s true (some u)).answer path (t.seen d s) compiled
      (compiled.map (·.toReport)) = .ok ⟨u, u.settledOutcome true⟩ := by
  have hfresh : u.dependencies.staleness d roots s = .fresh := by
    rw [hdeps]
    exact staleness_sealed t hcovers
  have hpatched : u.patched out.diagnostics (out.references.sealed (t.seen d s)) = u := by
    rw [← hdiag, ← hdeps]
    rfl
  rw [planOf_of_fresh hfresh]
  unfold Artifact.settledOutcome Plan.answer
  cases u.diagnostics.hasUnresolved with
  | false => rfl
  | true =>
    rw [hc]
    exact congrArg (fun u => Except.ok (Emission.mk u .patched)) hpatched

/-- **Carried out on its own result, a plan changes nothing.** -/
theorem Plan.answer_settled {path : String} {t : Tracker} {compiled : Except EngineError Output}
    {checked : Except EngineError Report} (hmap : checked = compiled.map (·.toReport))
    (hcovers : ∀ out, compiled = .ok out → out.references.Covers roots) {asked : Bool}
    {stored : Option Artifact} {em : Emission}
    (h : (planOf d roots s asked stored).answer path (t.seen d s) compiled checked = .ok em) :
    (planOf d roots s asked (some em.unit)).answer path (t.seen d s) compiled checked =
      .ok ⟨em.unit, em.unit.settledOutcome asked⟩ := by
  subst hmap
  cases asked with
  | false =>
    -- both plans compile
    change (Plan.compile .uncached).answer path (t.seen d s) compiled _ = .ok em at h
    refine h.trans ?_
    cases hc : compiled with
    | error err => rw [hc] at h; cases h
    | ok out => rw [hc] at h; cases h; rfl
  | true =>
    by_cases hp : planOf d roots s true stored = .reuse em.unit
    · obtain ⟨hfresh, hresolved⟩ := Desk.actionFor_eq_reuse_iff.1 (actionFor_of_planOf hp)
      rw [planOf_of_fresh hfresh]
      unfold Artifact.settledOutcome
      rw [hresolved]
      rfl
    · obtain ⟨out, hc, hdiag, hdeps⟩ := Plan.anew_of_answer hp h
      exact Plan.answer_of_anew hc (hcovers out hc) hdiag hdeps

/-! ## Emits -/

variable {e : Engine σ} {L : σ → WorkingSet → Prop}

/-- **An emit that is repeated answers with the same artifact**, also if the entry files have gone
meanwhile. -/
theorem Desk.emit_settled (he : e.Thorough L) {k : Desk σ} {view view' : View} {b : Build}
    {path : String} {moduleName : Option String} {em : Emission}
    (hl : k.slot.active = b.registration → L k.slot.engine b.set)
    (hview : view' b.set.origin = view b.set.origin)
    (h : (k.emit d e view b path moduleName).answer = .ok em) (disk : Disk) :
    (Desk.emit d e { (k.emit d e view b path moduleName).desk with disk } view' b path
      moduleName).answer = .ok ⟨em.unit, em.unit.settledOutcome b.set.options.useCache⟩ := by
  have hseen := k.seen_emit (d := d) (e := e) view b path moduleName
  have hload := loaded_activate he.toKeeps hl
  have hl' : (k.emit d e view b path moduleName).desk.slot.active = b.registration →
      L (k.emit d e view b path moduleName).desk.slot.engine b.set := by
    rcases k.loaded_emit (d := d) view path moduleName he.toKeeps hl with hk | hk
    · rw [hk]; exact hl
    · exact fun _ => hk
  rcases emit_eq_or (d := d) (e := e) k view b path moduleName with hk | ⟨content, hp, hc, hk⟩
  · rw [hk] at h; cases h
  have hload' := loaded_activate (b := b)
    (k := { (k.emit d e view b path moduleName).desk with disk }) he.toKeeps hl'
  have hwork : (k.workOf d e view b path content moduleName).answer = _ := k.answer_workOf hc
  rw [hk] at h
  obtain ⟨em', hem', ho, hu⟩ := exists_of_emitContent h
  have hstored := lookup?_emitContent hem' disk
  rw [← hk] at hstored
  rw [hem'] at hwork
  have hc' : (view' b.set.origin).content path = some content := by rw [hview, hc]
  rw [emit_eq hp hc', answer_emitContent _ hc', hview,
    he.compile_eq hload hload' hview, he.diagnose_eq hload hload' hview]
  change reply d b.set (view b.set.origin) path
    ((k.emit d e view b path moduleName).desk.cache.lookup? disk _)
    ((k.emit d e view b path moduleName).desk.slot.tracker.seen d (view b.set.origin)) _ _ = _
  rw [hstored, hseen]
  unfold reply
  cases ha : (planOf d b.set.options.types (view b.set.origin) b.set.options.useCache
    (k.stored? (.of d content b.set.options.emit moduleName))).answer path
      (k.slot.tracker.seen d (view b.set.origin))
      (e.compile view (k.slot.activate e b).1.engine path moduleName).1
      (e.diagnose view (k.slot.activate e b).1.engine path).1 with
  | error err => rw [ha] at hwork; cases hwork
  | ok em₀ =>
    rw [ha] at hwork
    cases hwork
    rw [Plan.answer_settled (he.diagnose_eq_map hload _ _ _) (fun _ => he.covers hload) ha]
    rw [k.slot.tracker.version_fst hc] at hu
    change Except.ok (Emission.mk { em'.unit with version := _ } _) = _
    rw [← hu]
    congr 2
    rw [hu]
    rfl

namespace Host

/-- An emit that is repeated at once answers with the same artifact. -/
theorem answer_emit_emit (he : e.Thorough L) {h : Host σ} (hr : Reachable d e h)
    {name path : String} {moduleName : Option String} {i : Nat} {b : Build} {em : Emission}
    (hb : h.builds.get? name = some (i, b))
    (hok : (h.step d e (.emit name path moduleName)).2.1 = .emitted (.ok em))
    (hsource : b.set.origin.source (h.step d e (.emit name path moduleName)).1.world =
      b.set.origin.source h.world) :
    ((h.step d e (.emit name path moduleName)).1.step d e (.emit name path moduleName)).2.1 =
      .emitted (.ok ⟨em.unit, em.unit.settledOutcome b.set.options.useCache⟩) := by
  obtain ⟨s, slot, hs, hslot, hl⟩ := exists_desk (hr.sound he.toKeeps) hb
  obtain ⟨s', slot', hs', hslot', hdesk, hanswer⟩ :=
    step_emit_eq (d := d) (e := e) path moduleName hb hs hslot
  have hb' := (h.builds_emit (d := d) (e := e) name path moduleName) ▸ hb
  obtain ⟨-, -, -, -, -, hanswer'⟩ := step_emit_eq (d := d) (e := e) path moduleName hb' hs' hslot'
  rw [hanswer] at hok
  have hsettled := Desk.emit_settled he hl hsource (Answer.emitted.inj hok)
    (h.step d e (.emit name path moduleName)).1.world.disk
  rw [hdesk] at hsettled
  rw [hanswer', hsettled]

end Host

/-! ## The compiler of the small language -/

namespace Mini

theorem steady : engine.Steady Loaded where
  toKeeps := keeps_loaded
  compile_eq {s s' set view view'} hl hl' hview path moduleName := by
    change compileWith view' s'.set path moduleName = compileWith view s.set path moduleName
    rw [show s.set = set from hl, show s'.set = set from hl']
    unfold compileWith
    rw [hview]
  diagnose_eq {s s' set view view'} hl hl' hview path := by
    change diagnoseWith view' s'.set path = diagnoseWith view s.set path
    rw [show s.set = set from hl, show s'.set = set from hl']
    unfold diagnoseWith
    rw [hview]

theorem thorough : engine.Thorough Loaded where
  toSteady := steady
  diagnose_eq_map {s set} hl view path moduleName := by
    cases hl
    exact diagnoseWith_eq_map view _ path moduleName
  covers {s set} hl view path moduleName out ho := by
    obtain ⟨-, content, -, -, rfl⟩ := compileWith_eq_ok_iff.1 (compileWith_of_loaded hl ho)
    exact covers_of_typings rfl

/-- **An emit that is repeated at once answers with the same artifact**, in all hosts that runs
lead to. Nothing is compiled again unless the cache is not asked, and only what misses an import is
checked again. -/
theorem emit_emit {h : Host Compiler} (hr : h.Reachable d engine) {name path : String}
    {moduleName : Option String} {i : Nat} {b : Build} {em : Emission}
    (hb : h.builds.get? name = some (i, b))
    (hok : (h.step d engine (.emit name path moduleName)).2.1 = .emitted (.ok em))
    (hsource : b.set.origin.source (h.step d engine (.emit name path moduleName)).1.world =
      b.set.origin.source h.world) :
    ((h.step d engine (.emit name path moduleName)).1.step d engine
        (.emit name path moduleName)).2.1 =
      .emitted (.ok ⟨em.unit,
        if b.set.options.useCache = false then .uncached
        else if em.unit.diagnostics.hasUnresolved then .patched
        else .reuse⟩) :=
  Host.answer_emit_emit thorough hr hb hok hsource

/-- A host with a build of a file that imports one that is not there. -/
def longing : Host Compiler :=
  (Host.new.run (.brief Host.usualTail) engine
    [.register "" "m" ["a.ts"]
      (.table (.ofList [("a.ts", "import { x } from \"./b\";")])) {}]).1

/-- Whether an answer is an artifact that misses an import. -/
def missesImport (a : Answer) : Bool :=
  a.emission?.any fun em => em.unit.diagnostics.hasUnresolved

/-- The file is only checked again as long as its import is missing. -/
theorem emit_emit_longing : ∃ em,
    (longing.step (.brief Host.usualTail) engine (.emit "m" "a.ts" none)).2.1 =
      .emitted (.ok em) ∧
    ((longing.step (.brief Host.usualTail) engine (.emit "m" "a.ts" none)).1.step
      (.brief Host.usualTail) engine (.emit "m" "a.ts" none)).2.1 =
        .emitted (.ok ⟨em.unit, .patched⟩) := by
  have hr : longing.Reachable (.brief Host.usualTail) engine := Host.Reachable.new.run _
  have hb : longing.builds.get? "m" = some (0, ⟨⟨["a.ts"],
      .table (.ofList [("a.ts", "import { x } from \"./b\";")]), {}⟩, 0, 1⟩) := by decide +kernel
  have hmisses : missesImport (longing.step (.brief Host.usualTail) engine
      (.emit "m" "a.ts" none)).2.1 = true := by decide +kernel
  obtain ⟨em, hem, hu⟩ := (Option.any_eq_true _ _).1 hmisses
  obtain ⟨em', calls, hstep⟩ := Answer.exists_emission (Option.isSome_of_mem hem)
  have hok := congrArg Prod.fst hstep
  rw [hok] at hem
  cases hem
  refine ⟨em, hok, ?_⟩
  have hagain := emit_emit hr hb hok rfl
  rw [if_neg (by decide), if_pos hu] at hagain
  exact hagain

end Mini

end CompileCache
