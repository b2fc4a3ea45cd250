import CompileCache.Proofs.Digest.Plain
import CompileCache.Proofs.Freshness.Matches

/-!
# Code — emitted code is never stale

* **`Mini.code_of_emission`**: each emission has the code that a new compiler makes.
* `Mini.shadowing`: a run in which a module takes the place of another one between two emits.
* `Mini.log_shadowing`: the run meets what is asked of runs here.
-/

namespace CompileCache.Mini

variable {d : Digest} {ev' ev : Event} {out' : Output}

theorem Repeats.exists_fresh (h : Repeats d ev' ev out') :
    ∃ out, ev.fresh engine = .ok out ∧ ev.emission.unit.code = out.code := by
  obtain ⟨content, -, hearlier, hnow⟩ := Mini.exists_fresh h.text h.contained h.earlier.fresh
  have hagree := h.code
  rw [hearlier] at hagree
  refine ⟨_, hnow, ?_⟩
  rw [code_outputOf_congr h.text.options hagree, ← hearlier, ← h.earlier.code, h.unit]

/-- **Emitted code is never stale**: in every run in which nobody but the sessions writes entries,
in which a fingerprint stands for one path only, and for which the digest tells apart what is
hashed, each emission has the code that a new compiler would make at that moment, whatever way it
was emitted. -/
theorem code_of_emission {steps : List Step}
    (hd : d.FaithfulOn ((Host.new.events d engine steps).Hashed d))
    (hh : Host.new.Honest d engine steps) (hs : (Host.new.events d engine steps).Sized d)
    (hp : (Host.new.events d engine steps).SinglePath d)
    (hev : ev ∈ Host.new.events d engine steps) :
    ∃ out, ev.fresh engine = .ok out ∧ ev.emission.unit.code = out.code := by
  have hg := Host.grounded_events keeps_loaded hh
  obtain ⟨pre, post, hl⟩ := List.append_of_mem hev
  rcases matches_or_repeats_of_grounded hd hg hs hp hl with ⟨out, h⟩ | ⟨-, ev', -, out', h⟩
  · exact ⟨out, h.fresh, h.code⟩
  · exact h.exists_fresh

/-! ## A run in which a file takes the place of another -/

/-- A text that imports a name. -/
def importing : String := "import \x7b x \x7d from \"./b\";"

/-- The text is put in place, and a module that exports the name. -/
def setting : List Step :=
  [.edit "a.ts" (some importing), .edit "b.tsx" (some "export const x = 1;"),
    .register "" "m" ["a.ts"] .live {}]

/-- The file is emitted, another module takes the place of the first, the file is emitted again. -/
def shadowing : List Step :=
  setting ++ [.emit "m" "a.ts" none, .edit "b.ts" (some "export const y = 1;"),
    .emit "m" "a.ts" none]

/-- The build of the run. -/
def build : Build := ⟨⟨["a.ts"], .live, {}⟩, 0, 1⟩

/-- The contents until the second module is there. -/
def table : KeyMap String := .ofList [("a.ts", importing), ("b.tsx", "export const x = 1;")]

/-- The host when the build is registered. -/
def settled : Host Compiler := (Host.new.run .letters engine setting).1

theorem sound_settled : settled.Sound Loaded :=
  (Host.Reachable.new.run setting).sound keeps_loaded

theorem exists_event {h : Host Compiler} (hs : h.Sound Loaded)
    (hb : h.builds.get? "m" = some (0, build)) (hc : h.world.table.get? "a.ts" = some importing) :
    ∃ em, h.event? .letters engine (.emit "m" "a.ts" none) =
      some ⟨⟨build, "a.ts", none⟩, h.world, em⟩ := by
  have hx : (Program.read importing).statements.contains .crash = false := by decide
  exact Host.exists_event "a.ts" keeps_loaded hs hb (by decide) hc (accepts (by decide) hc hx)

/-- The host before the second emit. -/
def replaced : Host Compiler :=
  (settled.run .letters engine [.emit "m" "a.ts" none, .edit "b.ts" (some "export const y = 1;")]).1

theorem sound_replaced : replaced.Sound Loaded :=
  ((Host.Reachable.new.run setting).run _).sound keeps_loaded

theorem builds_settled : settled.builds.get? "m" = some (0, build) := by decide

theorem table_settled : settled.world.table = table := by decide

theorem builds_replaced : replaced.builds.get? "m" = some (0, build) := by
  change (settled.step .letters engine (.emit "m" "a.ts" none)).1.builds.get? "m" = _
  rw [Host.builds_emit, builds_settled]

theorem table_replaced : replaced.world.table = table.insert "b.ts" "export const y = 1;" := by
  change KeyMap.insert (settled.step .letters engine (.emit "m" "a.ts" none)).1.world.table _ _ = _
  rw [Host.table_emit, table_settled]

theorem exists_events_shadowing : ∃ em em',
    settled.event? .letters engine (.emit "m" "a.ts" none) =
      some ⟨⟨build, "a.ts", none⟩, settled.world, em⟩ ∧
    replaced.event? .letters engine (.emit "m" "a.ts" none) =
      some ⟨⟨build, "a.ts", none⟩, replaced.world, em'⟩ ∧
    Host.new.events .letters engine shadowing =
      [⟨⟨build, "a.ts", none⟩, settled.world, em⟩,
        ⟨⟨build, "a.ts", none⟩, replaced.world, em'⟩] := by
  obtain ⟨em, hem⟩ := exists_event sound_settled builds_settled
    (by rw [table_settled]; decide)
  obtain ⟨em', hem'⟩ := exists_event sound_replaced builds_replaced
    (by rw [table_replaced]; decide)
  refine ⟨em, em', hem, hem', ?_⟩
  rw [shadowing, Host.events_append]
  change _ ++ ((settled.event? .letters engine _).toList ++ (_ ++
    ((replaced.event? .letters engine _).toList ++ _))) = _
  rw [hem, hem']
  rfl

theorem honest_shadowing : Host.new.Honest .letters engine shadowing :=
  ⟨trivial, trivial, trivial, trivial, trivial, trivial, trivial⟩

theorem fingerprint?_shadowing {w : World} (hw : w.table.get? "a.ts" = some importing)
    (em : Emission) : Event.fingerprint? .letters ⟨⟨build, "a.ts", none⟩, w, em⟩ =
      some (.of .letters importing build.set.options.emit none) := by
  unfold Event.fingerprint?
  change (w.table.get? "a.ts").map _ = _
  rw [hw]
  rfl

theorem log_shadowing : (Host.new.events .letters engine shadowing).Sized .letters ∧
    (Host.new.events .letters engine shadowing).SinglePath .letters := by
  obtain ⟨em, em', -, -, hl⟩ := exists_events_shadowing
  have hsized : (Fingerprint.of .letters importing build.set.options.emit none).Sized :=
    ⟨by decide, by decide, nofun⟩
  have hw : settled.world.table.get? "a.ts" = some importing := by
    rw [table_settled]; decide
  have hw' : replaced.world.table.get? "a.ts" = some importing := by
    rw [table_replaced]; decide
  have each : ∀ ev ∈ Host.new.events .letters engine shadowing, ev.path = "a.ts" ∧
      ev.fingerprint? .letters = some (.of .letters importing build.set.options.emit none) := by
    rw [hl]
    intro ev hev
    rcases List.mem_cons.1 hev with rfl | hev
    · exact ⟨rfl, fingerprint?_shadowing hw em⟩
    · cases List.mem_singleton.1 hev
      exact ⟨rfl, fingerprint?_shadowing hw' em'⟩
  refine ⟨fun ev hev fp hfp => ?_, fun ev hev ev' hev' fp _ _ => ?_⟩
  · rw [(each ev hev).2] at hfp
    cases hfp
    exact hsized
  · rw [(each ev hev).1, (each ev' hev').1]

/-- The second emission of the run has the code that a new compiler makes. -/
theorem code_of_second_emission : ∃ ev ∈ Host.new.events .letters engine shadowing,
    ev.source.content "b.ts" = some "export const y = 1;" ∧
    ∃ out, ev.fresh engine = .ok out ∧ ev.emission.unit.code = out.code := by
  obtain ⟨em, em', -, -, hl⟩ := exists_events_shadowing
  have hev : ⟨⟨build, "a.ts", none⟩, replaced.world, em'⟩ ∈
      Host.new.events .letters engine shadowing := by
    rw [hl]
    exact List.mem_cons_of_mem _ (List.mem_singleton.2 rfl)
  refine ⟨_, hev, ?_, code_of_emission ((Digest.letters_faithful).on _) honest_shadowing
    log_shadowing.1 log_shadowing.2 hev⟩
  change replaced.world.table.get? "b.ts" = _
  rw [table_replaced]
  decide

end CompileCache.Mini
