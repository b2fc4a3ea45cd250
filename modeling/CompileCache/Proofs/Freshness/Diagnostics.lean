import CompileCache.Proofs.Freshness.Code

/-!
# Diagnostics — when reports are stale

* `Mini.UpToDate`: an emission has the diagnostics and the record that a new compiler would have.
* `References.hashes_congr`: records of sources that agree on all that was looked at are equal.
* **`Mini.report_of_emission`**: an emission is up to date, or it repeats an earlier report and a
  specifier means a file that was not there then.
* `Mini.stale_report`: a run with an emission that is not up to date.
-/

namespace CompileCache.Mini

variable {d : Digest} {log : Log} {ev' ev : Event} {s t : Source}

/-- An emission has the diagnostics of a report, and the record of its references in a source. -/
def HasReport (d : Digest) (ev : Event) (s : Source) (r : Report) : Prop :=
  ev.emission.unit.diagnostics = r.diagnostics ∧
    ev.emission.unit.dependencies.hashes = r.references.hashes d s

/-- An emission has the diagnostics and the record that a new compiler would have. -/
def UpToDate (d : Digest) (ev : Event) : Prop :=
  ∃ r, ev.freshReport engine = .ok r ∧ HasReport d ev ev.source r

/-! ## Records -/

theorem keyHashes_congr {paths : KeySet} (h : ∀ q ∈ paths, s.Agree t q) :
    paths.hashes d s = paths.hashes d t := by
  apply KeyMap.ext_get?
  intro k
  rw [KeySet.get?_hashes, KeySet.get?_hashes]
  split
  · next hk =>
    unfold Source.hashAt
    rw [show s.content k = t.content k from h k hk]
  · rfl

theorem hashes_congr {r : References} (h : AgreeOnCode s t r) (hm : AgreeOnModules s t r) :
    r.hashes d s = r.hashes d t := by
  unfold References.hashes
  rw [keyHashes_congr h.refFiles, keyHashes_congr hm]
  cases ht : r.typings with
  | none => rfl
  | some set => rw [Option.map_some, Option.map_some, keyHashes_congr (h.typings set ht)]

theorem freshReport_of_fresh {out : Output} (h : ev.fresh engine = .ok out) :
    ev.freshReport engine = .ok out.toReport := by
  change compileWith ev.view ev.build.set ev.path ev.moduleName = .ok out at h
  change diagnoseWith ev.view ev.build.set ev.path = .ok _
  rw [diagnoseWith_eq_map ev.view ev.build.set ev.path ev.moduleName, h]
  rfl

/-! ## Reports -/

theorem Repeats.hasReport {out' : Output} (h : Repeats d ev' ev out') :
    HasReport d ev ev'.source out'.toReport := by
  unfold HasReport
  rw [h.unit]
  exact ⟨h.earlier.diagnostics, h.earlier.dependencies⟩

/-- An emission with the report of an earlier event is up to date, or a specifier means a file that
was not there then. -/
theorem Repeats.upToDate_or_rerouted {out' : Output} (h : Repeats d ev' ev out') :
    UpToDate d ev ∨ Rerouted ev'.source ev.source ev.path out'.references := by
  obtain ⟨content, hcontent, hearlier, hnow⟩ :=
    Mini.exists_fresh h.text h.contained h.earlier.fresh
  have hc' : ev'.source.content ev.path = some content := by
    rw [← h.text.path, h.text.content, hcontent]
  have hfile : ev'.source.Agree ev.source ev.path := hc'.trans hcontent.symm
  have hcode := h.code
  have hmodules := h.modules
  by_cases hne : (outputOf ev.build.set.options ev.source ev.path (Program.read content)
    ev.moduleName).toReport = out'.toReport
  · refine .inl ⟨out'.toReport, hne ▸ freshReport_of_fresh hnow, h.hasReport.1, ?_⟩
    rw [← hashes_congr h.code h.modules]
    exact h.hasReport.2
  · refine .inr ?_
    rw [hearlier] at hcode hmodules hne ⊢
    exact rerouted_of_report_ne h.text.options hc' hfile hcode hmodules hne

theorem Matches.upToDate {out : Output} (h : Matches d ev out) : UpToDate d ev :=
  ⟨out.toReport, freshReport_of_fresh h.fresh, h.diagnostics, h.dependencies⟩

/-- **When reports are stale**: in every run in which nobody but the sessions writes entries, in
which a fingerprint stands for one path only, and for which the digest tells apart what is hashed,
each emission is up to date, save when an artifact is returned as it is, and in the file or in a
module that it leads to a specifier means a file that had no content when the report of the artifact
was made. -/
theorem report_of_emission {steps : List Step}
    (hd : d.FaithfulOn ((Host.new.events d engine steps).Hashed d))
    (hh : Host.new.Honest d engine steps) (hs : (Host.new.events d engine steps).Sized d)
    (hp : (Host.new.events d engine steps).SinglePath d) {pre post : Log}
    (hl : Host.new.events d engine steps = pre ++ ev :: post) :
    (∃ r, ev.freshReport engine = .ok r) ∧
    (UpToDate d ev ∨ (ev.emission.outcome = .reuse ∧ ∃ ev' ∈ pre, ∃ r',
      ev'.path = ev.path ∧ ev'.fingerprint? d = ev.fingerprint? d ∧
      ev'.freshReport engine = .ok r' ∧ HasReport d ev ev'.source r' ∧
      Rerouted ev'.source ev.source ev.path r'.references)) := by
  have hg := Host.grounded_events keeps_loaded hh
  rcases matches_or_repeats_of_grounded hd hg hs hp hl with ⟨out, h⟩ | ⟨hr, ev', hev', out', h⟩
  · exact ⟨⟨_, freshReport_of_fresh h.fresh⟩, .inl h.upToDate⟩
  · obtain ⟨out, hout, -⟩ := h.exists_fresh
    refine ⟨⟨_, freshReport_of_fresh hout⟩, h.upToDate_or_rerouted.imp_right fun hroute => ?_⟩
    refine ⟨hr, ev', hev', out'.toReport, h.text.path, h.text.fingerprint?_eq,
      freshReport_of_fresh h.earlier.fresh, h.hasReport, hroute⟩

/-! ## A stale report -/

/-- The statement of the importing text. -/
def importItem : Located :=
  ⟨.imports ["x"] "./b", Program.spanAt 0 importing.toList, Program.locationAt 0 importing.toList⟩

theorem read_importing : Program.read importing = ⟨[importItem], []⟩ := by decide

theorem freshReport_importing {w : World} {t : KeyMap String} (ht : w.table = t) (em : Emission)
    {q content : String} (hc : t.get? "a.ts" = some importing)
    (hr : resolveFile? (.ofTable t) "a.ts" "./b" = some q) (hne : q ≠ "a.ts")
    (hq : t.get? q = some content)
    (hleaf : (Program.read content).statements.filterMap Statement.specifier? = []) :
    Event.freshReport engine ⟨⟨build, "a.ts", none⟩, w, em⟩ = .ok
      ⟨⟨[], missingMembers importItem "./b" (.ofList (ownExportsOf (.ofTable t)
        (fileScope (.ofTable t) [] "a.ts" ⟨[importItem], []⟩) q)) ["x"]⟩,
      ⟨.empty, .ofList [q], none⟩⟩ := by
  subst ht
  have hfresh := fresh_eq_ok ⟨⟨build, "a.ts", none⟩, w, em⟩ rfl hc (by decide)
  rw [freshReport_of_fresh hfresh, read_importing]
  exact congrArg _ (report_import rfl hr hne hq hleaf {} rfl none)

theorem freshReport_settled (em : Emission) :
    Event.freshReport engine ⟨⟨build, "a.ts", none⟩, settled.world, em⟩ =
      .ok ⟨⟨[], []⟩, ⟨.empty, .ofList ["b.tsx"], none⟩⟩ := by
  rw [freshReport_importing table_settled em (by decide)
    (show _ = some "b.tsx" by decide) (by decide)
    (show _ = some "export const x = 1;" by decide) (by decide)]
  rfl

theorem freshReport_replaced (em : Emission) :
    Event.freshReport engine ⟨⟨build, "a.ts", none⟩, replaced.world, em⟩ =
      .ok ⟨⟨[], [noExportedMember importItem "./b" "x"]⟩, ⟨.empty, .ofList ["b.ts"], none⟩⟩ := by
  rw [freshReport_importing table_replaced em (by decide)
    (show _ = some "b.ts" by decide) (by decide)
    (show _ = some "export const y = 1;" by decide) (by decide)]
  rfl

/-- **A stale report**: the second emission of the run has the report that was made before another
module took the place of the first. -/
theorem stale_report : Digest.letters.Faithful ∧ Host.new.Honest .letters engine shadowing ∧
    (Host.new.events .letters engine shadowing).Sized .letters ∧
    (Host.new.events .letters engine shadowing).SinglePath .letters ∧
    ∃ ev ∈ Host.new.events .letters engine shadowing, ev.emission.outcome = .reuse ∧
      ¬ UpToDate .letters ev := by
  refine ⟨Digest.letters_faithful, honest_shadowing, log_shadowing.1, log_shadowing.2, ?_⟩
  obtain ⟨em, em', hev, hev', hl⟩ := exists_events_shadowing
  have hfirst : UpToDate .letters ⟨⟨build, "a.ts", none⟩, settled.world, em⟩ := by
    have hg := Host.grounded_events keeps_loaded honest_shadowing
    rcases matches_or_repeats_of_grounded ((Digest.letters_faithful).on _) hg log_shadowing.1
      log_shadowing.2 (hl.trans (List.nil_append _).symm) with ⟨out, h⟩ | ⟨-, ev', hm, -⟩
    · exact h.upToDate
    · cases hm
  obtain ⟨r, hr, hdiagnostics, hdependencies⟩ := hfirst
  rw [freshReport_settled] at hr
  cases hr
  have hagree : settled.world.table.get? "b.tsx" = replaced.world.table.get? "b.tsx" := by
    rw [table_settled, table_replaced]
    decide
  have hreuse : em.unit.actionFor .letters build.set.options.types
      (build.set.origin.source replaced.world) = .reuse := by
    refine actionFor_eq_reuse hdependencies rfl ⟨?_, ?_⟩ ?_ ?_
    · intro q hq
      exact absurd hq (KeySet.not_mem_empty q)
    · nofun
    · intro q hq
      cases List.mem_singleton.1 (KeySet.mem_ofList.1 hq)
      exact hagree
    · rw [hdiagnostics]
      rfl
  have hw : settled.world.table.get? "a.ts" = some importing := by
    rw [table_settled]; decide
  have hw' : replaced.world.table.get? "a.ts" = some importing := by
    rw [table_replaced]; decide
  obtain ⟨version, hagain⟩ := Host.event_again "a.ts" sound_settled sound_replaced builds_settled
    hev rfl builds_replaced (by decide) hw hw' rfl rfl hreuse
  have hmem : ⟨⟨build, "a.ts", none⟩, replaced.world, em'⟩ ∈
      Host.new.events .letters engine shadowing := by
    rw [hl]
    exact List.mem_cons_of_mem _ (List.mem_singleton.2 rfl)
  rw [hev'] at hagain
  cases hagain
  refine ⟨_, hmem, rfl, ?_⟩
  rintro ⟨r, hr, hdiagnostics', -⟩
  rw [freshReport_replaced] at hr
  cases hr
  change em.unit.diagnostics = _ at hdiagnostics'
  rw [hdiagnostics] at hdiagnostics'
  cases hdiagnostics'

/-- What is known of the second emission of the run. -/
theorem report_of_second_emission : ∃ ev' ev, Host.new.events .letters engine shadowing =
    [ev'] ++ [ev] ∧ (∃ r, ev.freshReport engine = .ok r) ∧
    (UpToDate .letters ev ∨ (ev.emission.outcome = .reuse ∧ ∃ ev₀ ∈ [ev'], ∃ r',
      ev₀.path = ev.path ∧ ev₀.fingerprint? .letters = ev.fingerprint? .letters ∧
      ev₀.freshReport engine = .ok r' ∧ HasReport .letters ev ev₀.source r' ∧
      Rerouted ev₀.source ev.source ev.path r'.references)) := by
  obtain ⟨em, em', -, -, hl⟩ := exists_events_shadowing
  exact ⟨_, _, hl, report_of_emission ((Digest.letters_faithful).on _) honest_shadowing
    log_shadowing.1 log_shadowing.2 hl⟩

end CompileCache.Mini
