import CompileCache.Proofs.Freshness.Diagnostics

/-!
# Paths — which path an artifact has

* `Event.Compiled`: an event compiled the artifact that another one returns.
* **`Host.path_of_emission`**: an emission has the path that it was asked for if it was compiled for
  it, and else the path of an earlier one under the same key, for any compiler.
* `Mini.foreign_path`: a run with an emission for another path than that of its artifact.
-/

namespace CompileCache

variable {σ : Type} {d : Digest} {e : Engine σ} {L : σ → WorkingSet → Prop} {log : Log}
  {ev ev' ev'' : Event}

/-- The key that the artifact has in caches. -/
def Event.key? (d : Digest) (ev : Event) : Option String := (ev.fingerprint? d).map (·.key)

/-- An event compiled the artifact that another one returns. -/
structure Event.Compiled (d : Digest) (ev' ev : Event) : Prop where
  compiles : ev'.emission.outcome.compiles = true
  key : ev'.key? d = ev.key? d
  path : ev.emission.unit.path = ev'.path

theorem Event.Offers.key?_eq {u : Artifact} (h : ev'.Offers d ev u) : ev'.key? d = ev.key? d := by
  obtain ⟨-, ⟨fp', fp, hf', hf, hkey⟩, -⟩ := h
  unfold Event.key?
  rw [hf', hf, Option.map_some, Option.map_some, hkey]

theorem Event.Explained.path (h : ev.Explained d e L log) :
    (ev.emission.outcome.compiles = true ∧ ev.emission.unit.path = ev.path) ∨
      (ev.emission.outcome.compiles = false ∧
        ∃ ev' ∈ log, ev'.key? d = ev.key? d ∧ ev.emission.unit.path = ev'.emission.unit.path) := by
  cases h.account with
  | compiled hl ho hr hp hpath =>
    refine .inl ⟨?_, hpath⟩
    cases hout : ev.emission.outcome with
    | reuse => exact absurd hout hr
    | patched => exact absurd hout hp
    | uncached | miss | recompiled => rfl
  | patched hs ha hl ho hp hpath =>
    obtain ⟨ev', hev', hoffers⟩ := hs
    refine .inr ⟨by rw [hp]; rfl, ev', hev', hoffers.key?_eq, ?_⟩
    rw [hpath, hoffers.2.2]
  | reused hs ha hr hu =>
    obtain ⟨ev', hev', hoffers⟩ := hs
    refine .inr ⟨by rw [hr]; rfl, ev', hev', hoffers.key?_eq, ?_⟩
    rw [hu, hoffers.2.2]

/-- Every artifact of a log was compiled by an event of it, under the same key. -/
theorem Log.Grounded.exists_compiled (hg : log.Grounded d e L) (hev : ev ∈ log) :
    ∃ ev' ∈ log, ev'.Compiled d ev := by
  induction hg generalizing ev with
  | nil => cases hev
  | @snoc log ev₀ hg he ih =>
    rcases List.mem_append.1 hev with hev | hev
    · obtain ⟨ev', hev', hc⟩ := ih hev
      exact ⟨ev', List.mem_append_left _ hev', hc⟩
    · cases List.mem_singleton.1 hev
      rcases he.path with ⟨hcompiles, hpath⟩ | ⟨-, ev', hev', hkey, hpath⟩
      · exact ⟨ev₀, List.mem_append_right _ hev, hcompiles, rfl, hpath⟩
      · obtain ⟨ev'', hev'', hc⟩ := ih hev'
        exact ⟨ev'', List.mem_append_left _ hev'', hc.compiles, hc.key.trans hkey,
          hpath.trans hc.path⟩

/-- **Which path an artifact has**, in every run in which nobody but the sessions writes entries:
the one that it was asked for if it was compiled then, and else the one for which it was compiled by
an earlier event under the same key; hence the one that it was asked for as long as the key is used
for no other. -/
theorem Host.path_of_emission {steps : List Step} (hh : Host.new.Honest d e steps)
    {pre post : Log} (hl : Host.new.events d e steps = pre ++ ev :: post) :
    (ev.emission.outcome.compiles = true → ev.emission.unit.path = ev.path) ∧
    (ev.emission.outcome.compiles = false → ∃ ev' ∈ pre, ev'.Compiled d ev) ∧
    ((∀ ev' ∈ pre, ev'.key? d = ev.key? d → ev'.path = ev.path) →
      ev.emission.unit.path = ev.path) := by
  have hg := Host.grounded_events e.keeps_true hh
  rw [hl] at hg
  obtain ⟨hpre, he⟩ := hg.split
  rcases he.path with ⟨hcompiles, hpath⟩ | ⟨hcompiles, ev', hev', hkey, hpath⟩
  · exact ⟨fun _ => hpath, fun h => absurd (hcompiles.symm.trans h) nofun, fun _ => hpath⟩
  · obtain ⟨ev'', hev'', hc⟩ := hpre.exists_compiled hev'
    have hcompiled : ev''.Compiled d ev :=
      ⟨hc.compiles, hc.key.trans hkey, hpath.trans hc.path⟩
    refine ⟨fun h => absurd (hcompiles.symm.trans h) nofun, fun _ => ⟨ev'', hev'', hcompiled⟩, ?_⟩
    intro hsingle
    rw [hcompiled.path, hsingle ev'' hev'' hcompiled.key]

/-! ## An artifact for another path -/

namespace Mini

/-- A text that exports a name. -/
def exporting : String := "export const x = 1;"

/-- Two files with one text. -/
def twins : KeyMap String := .ofList [("a.ts", exporting), ("b.ts", exporting)]

/-- A build of the two files, which are emitted one after the other. -/
def twice : List Step :=
  [.register "" "m" ["a.ts", "b.ts"] (.table twins) {}, .emit "m" "a.ts" none,
    .emit "m" "b.ts" none]

/-- The build of the run. -/
def twinBuild : Build := ⟨⟨["a.ts", "b.ts"], .table twins, {}⟩, 0, 1⟩

/-- The hosts before the emits. -/
def twinHost : Host Compiler := (Host.new.run .letters engine (twice.take 1)).1

def laterHost : Host Compiler := (twinHost.step .letters engine (.emit "m" "a.ts" none)).1

theorem sound_twinHost : twinHost.Sound Loaded := (Host.Reachable.new.run _).sound keeps_loaded

theorem sound_laterHost : laterHost.Sound Loaded := sound_twinHost.step keeps_loaded _

theorem traced_twinHost : twinHost.Traced .letters [] :=
  Host.Traced.new.step (x := .register "" "m" ["a.ts", "b.ts"] (.table twins) {}) trivial

theorem builds_twinHost : twinHost.builds.get? "m" = some (0, twinBuild) := by decide

theorem builds_laterHost : laterHost.builds.get? "m" = some (0, twinBuild) := by
  unfold laterHost
  rw [Host.builds_emit, builds_twinHost]

theorem exists_events_twice : ∃ em version, em.unit.path = "a.ts" ∧
    Host.new.events .letters engine twice = [⟨⟨twinBuild, "a.ts", none⟩, twinHost.world, em⟩,
      ⟨⟨twinBuild, "b.ts", none⟩, laterHost.world, ⟨{ em.unit with version }, .reuse⟩⟩] := by
  have hx : (Program.read exporting).statements.contains .crash = false := by decide
  have hc : twins.get? "a.ts" = some exporting := by decide
  have hc' : twins.get? "b.ts" = some exporting := by decide
  have haccepts : engine.Accepts Loaded (Origin.source twinHost.world) twinBuild.set "a.ts" none :=
    accepts (by decide) hc hx
  obtain ⟨em, hev⟩ := Host.exists_event (d := .letters) "a.ts" keeps_loaded sound_twinHost
    builds_twinHost (by decide) hc haccepts
  have hfirst := traced_twinHost.explained keeps_loaded sound_twinHost hev
  obtain ⟨hcompiles, hpath⟩ := hfirst.path.resolve_right fun h => by
    obtain ⟨-, ev', hm, -⟩ := h
    cases hm
  obtain ⟨out, h⟩ := matches_of_compiles hfirst hcompiles
  have hreport : out.toReport = ⟨⟨[], []⟩, .empty⟩ := by
    cases h.fresh.symm.trans (fresh_eq_ok _ rfl hc hx)
    rw [report_leaf (by decide) _ rfl none]
    rfl
  have hreuse : em.unit.actionFor .letters [] (.ofTable twins) = .reuse := by
    have hdependencies := h.dependencies
    have hreferences : out.references = .empty := congrArg Report.references hreport
    rw [hreferences] at hdependencies
    refine actionFor_eq_reuse (s := .ofTable twins) hdependencies rfl ⟨?_, nofun⟩ ?_ ?_
    · exact fun q hq => rfl
    · exact fun q hq => rfl
    · rw [h.diagnostics, show out.diagnostics = ⟨[], []⟩ from congrArg Report.diagnostics hreport]
      rfl
  obtain ⟨version, hagain⟩ := Host.event_again "b.ts" sound_twinHost sound_laterHost builds_twinHost
    hev rfl builds_laterHost (by decide) hc hc' rfl rfl hreuse
  refine ⟨em, version, hpath, ?_⟩
  change _ ++ ((twinHost.event? .letters engine _).toList ++
    ((laterHost.event? .letters engine _).toList ++ _)) = _
  rw [hev, hagain]
  rfl

theorem honest_twice : Host.new.Honest .letters engine twice := ⟨trivial, trivial, trivial, trivial⟩

/-- What is known of the path of the second emission of the run. -/
theorem path_of_second_emission : ∃ ev' ev, Host.new.events .letters engine twice = [ev'] ++ [ev] ∧
    (ev.emission.outcome.compiles = true → ev.emission.unit.path = ev.path) ∧
    (ev.emission.outcome.compiles = false → ∃ ev₀ ∈ [ev'], ev₀.Compiled .letters ev) ∧
    ((∀ ev₀ ∈ [ev'], ev₀.key? .letters = ev.key? .letters → ev₀.path = ev.path) →
      ev.emission.unit.path = ev.path) := by
  obtain ⟨em, version, -, hl⟩ := exists_events_twice
  exact ⟨_, _, hl, Host.path_of_emission honest_twice hl⟩

/-- **An artifact for another path**: the second emission of the run has the path of the first. -/
theorem foreign_path : Digest.letters.Faithful ∧ Host.new.Honest .letters engine twice ∧
    ∃ ev ∈ Host.new.events .letters engine twice, ev.path = "b.ts" ∧
      ev.emission.unit.path = "a.ts" := by
  obtain ⟨em, version, hpath, hl⟩ := exists_events_twice
  refine ⟨Digest.letters_faithful, honest_twice, ?_⟩
  rw [hl]
  exact ⟨_, List.mem_cons_of_mem _ (List.mem_singleton.2 rfl), rfl, hpath⟩

end Mini

end CompileCache
