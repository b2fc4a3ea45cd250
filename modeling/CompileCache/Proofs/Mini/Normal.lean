import CompileCache.Proofs.Mini.Footprint
import CompileCache.Proofs.Mini.Relative

/-!
# Normal — the paths that a compiler reports are normal

* `Source.forall_mem_closure`: what holds of the roots and is kept by every step holds of all that
  is reached.
* `normal_candidates`, `normal_of_resolveFile?`: the files that specifiers mean.
* `References.Has`, `normal_referencesOf`: the paths that are looked at for a program.
* **`paths_normal`**: targets are resolved to normal paths, all paths that the compiler reports for
  a normal path are normal, and none of them stands there in two spellings.
* `paths_normal_detours`: targets with idle pieces and more steps back than there are directories.
-/

namespace CompileCache

theorem Source.forall_mem_closure {s : Source} {next : String → String → List String}
    {roots : List String} {P : String → Prop} (hroots : ∀ r ∈ roots, P r)
    (hstep : ∀ p content, P p → ∀ q ∈ next p content, P q) :
    ∀ q ∈ s.closure next roots, P q := by
  intro q hq
  obtain ⟨r, hr, hreach⟩ := Source.mem_closure.1 hq
  have hrP := hroots r hr
  clear hq hr
  induction hreach with
  | refl => exact hrP
  | step _ hnext _ ih => exact ih (hstep _ _ hrP _ hnext)

/-- A path that was looked at. -/
def References.Has (r : References) (q : String) : Prop :=
  q ∈ r.refFiles ∨ q ∈ r.modules ∨ ∃ typings, r.typings = some typings ∧ q ∈ typings

namespace Mini

open CompileCache.Path (Normal Resolves)

variable {s : Source} {file : String}

theorem normal_candidates (h : Normal file) {specifier q : String}
    (hq : q ∈ candidates file specifier) : Normal q := by
  have hbase := normal_joinRelative h specifier
  obtain ⟨tail, htail, rfl⟩ := List.mem_map.1 hq
  simp only [extensions, List.mem_cons, List.not_mem_nil, or_false] at htail
  rcases htail with rfl | rfl | rfl | rfl
  · rwa [String.append_empty]
  all_goals exact hbase.append (by decide) (by decide)

theorem normal_of_resolveFile? (h : Normal file) {specifier q : String}
    (hq : resolveFile? s file specifier = some q) : Normal q := by
  unfold resolveFile? at hq
  split at hq
  · exact normal_candidates h (List.mem_of_find?_eq_some hq)
  · cases hq

theorem normal_of_mem_references (h : Normal file) (content : String) :
    ∀ q ∈ references file content, Normal q := by
  intro q hq
  obtain ⟨x, -, hx⟩ := List.mem_filterMap.1 hq
  cases x with
  | reference target => exact Option.some.inj hx ▸ normal_joinRelative h target
  | _ => cases hx

theorem normal_of_mem_importedFiles (h : Normal file) (content : String) :
    ∀ q ∈ importedFiles s file content, Normal q := by
  intro q hq
  obtain ⟨specifier, -, hspecifier⟩ := List.mem_filterMap.1 hq
  exact normal_of_resolveFile? h hspecifier

/-- **The paths that are looked at for a program are normal** if its path and the roots are. -/
theorem normal_referencesOf {roots : List String} (hroots : ∀ r ∈ roots, Normal r)
    (h : Normal file) (p : Program) {q : String} (hq : (referencesOf s roots file p).Has q) :
    Normal q := by
  rcases hq with hq | hq | ⟨typings, htypings, hq⟩
  · obtain ⟨⟨i, q⟩, hi, rfl⟩ := List.mem_map.1 (KeySet.mem_ofList.1 hq)
    obtain ⟨x, -, hx⟩ := List.mem_filterMap.1 hi
    split at hx
    · cases hx; exact normal_joinRelative h _
    · cases hx
  · have hclosure := (KeySet.mem_erase.1 hq).2
    rw [moduleClosure_eq] at hclosure
    refine Source.forall_mem_closure (fun r hr => ?_)
      (fun p content hp => normal_of_mem_importedFiles hp content) q hclosure
    obtain ⟨specifier, -, hspecifier⟩ := List.mem_filterMap.1 hr
    exact normal_of_resolveFile? h hspecifier
  · unfold referencesOf typings? at htypings
    dsimp only at htypings
    split at htypings
    · cases htypings
    · cases htypings
      exact Source.forall_mem_closure hroots
        (fun p content hp => normal_of_mem_references hp content) q hq

/-- The compiler reports paths for a path, with code or without. -/
inductive Reports (view : View) (c : Compiler) (path : String) : References → Prop
  | compiles {moduleName : Option String} {out : Output}
      (h : (engine.compile view c path moduleName).1 = .ok out) :
      Reports view c path out.references
  | diagnoses {report : Report} (h : (engine.diagnose view c path).1 = .ok report) :
      Reports view c path report.references

theorem Reports.eq {view : View} {c : Compiler} {path : String} {r : References}
    (h : Reports view c path r) :
    ∃ p, r = referencesOf (view c.set.origin) c.set.options.types path p := by
  have hcompile : ∀ moduleName out, compileWith view c.set path moduleName = .ok out →
      ∃ p, out.references = referencesOf (view c.set.origin) c.set.options.types path p := by
    intro moduleName out hout
    obtain ⟨-, content, -, -, rfl⟩ := compileWith_eq_ok_iff.1 hout
    exact ⟨Program.read content, rfl⟩
  cases h with
  | compiles h => exact hcompile _ _ h
  | @diagnoses report h =>
    have hmap : (compileWith view c.set path none).map (·.toReport) = .ok report :=
      (diagnoseWith_eq_map view c.set path none).symm.trans h
    cases hout : compileWith view c.set path none with
    | error e => rw [hout] at hmap; cases hmap
    | ok out =>
      rw [hout] at hmap
      cases hmap
      exact hcompile none out hout

/-- **The paths of a compiler stay normal.** Seen from a normal path, every target is the normal
path that it resolves to behind the directory, where two points at the root have no effect. All
paths that the compiler reports for a normal path, with normal roots, are normal; of these and the
path itself, no two resolve to the same names. -/
theorem paths_normal :
    (∀ file target, Normal file → Normal (joinRelative file target) ∧
      ∀ ns, Resolves ((Path.pieces file).dropLast ++ Path.pieces target) ns ↔
        ns = Path.names (joinRelative file target)) ∧
    ∀ view (c : Compiler) path refs, Normal path → (∀ r ∈ c.set.options.types, Normal r) →
      Reports view c path refs →
        (∀ q, refs.Has q → Normal q) ∧
        ∀ p q ns, p = path ∨ refs.Has p → q = path ∨ refs.Has q →
          Resolves (Path.pieces p) ns → Resolves (Path.pieces q) ns → p = q := by
  refine ⟨fun file target h =>
    ⟨normal_joinRelative h target, fun ns => resolves_joinRelative_iff h target⟩, ?_⟩
  intro view c path refs hpath hroots hreports
  obtain ⟨p, rfl⟩ := hreports.eq
  have hnormal : ∀ q, (referencesOf (view c.set.origin) c.set.options.types path p).Has q →
      Normal q := fun q => normal_referencesOf hroots hpath p
  refine ⟨hnormal, fun q q' ns hq hq' hns hns' => ?_⟩
  have hnormal' : ∀ q, q = path ∨
      (referencesOf (view c.set.origin) c.set.options.types path p).Has q → Normal q :=
    fun q hq => hq.elim (fun e => e ▸ hpath) (hnormal q)
  exact (hnormal' q hq).eq_of_resolves (hnormal' q' hq') hns hns'

/-! ## Detours -/

/-- A file that means another one in two ways, once above the root. -/
def detourText : String :=
  "/// <reference path=\"..//../b.ts\" />\nimport { c } from \"./../s/../b\";"

def detourTable : KeyMap String := .ofList [("s/a.ts", detourText), ("b.ts", "")]

def detourCompiler : Compiler :=
  { Compiler.new "os" with set := ⟨["s/a.ts"], .table detourTable, { types := ["b.ts"] }⟩ }

/-- Both detours, and the root, are the same normal path. -/
theorem paths_normal_detours :
    Normal "s/a.ts" ∧ (∀ r ∈ detourCompiler.set.options.types, Normal r) ∧
    Resolves ["s", "..", "", "..", "b.ts"] ["b.ts"] ∧
    ∃ refs, Reports (Origin.source default) detourCompiler "s/a.ts" refs ∧
      "b.ts" ∈ refs.refFiles ∧ "b.ts" ∈ refs.modules ∧ ∀ q, refs.Has q → Normal q := by
  have hpath : Normal "s/a.ts" := by decide
  have hroots : ∀ r ∈ detourCompiler.set.options.types, Normal r := by decide
  have hresolves := ((paths_normal.1 "s/a.ts" "..//../b.ts" hpath).2 ["b.ts"]).2 (by decide)
  have hout : compileWith (Origin.source default) detourCompiler.set "s/a.ts" none =
      .ok (outputOf detourCompiler.set.options (.ofTable detourTable) "s/a.ts"
        (Program.read detourText) none) :=
    compileWith_eq_ok_iff.2 ⟨by decide, detourText, rfl, by decide +kernel, rfl⟩
  have hreports : Reports (Origin.source default) detourCompiler "s/a.ts" _ := .compiles hout
  exact ⟨hpath, hroots, hresolves, _, hreports, by decide +kernel,
    mem_modules_iff.2 ⟨by decide, Source.root_mem_closure (by decide +kernel)⟩,
    (paths_normal.2 _ _ _ _ hpath hroots hreports).1⟩

end Mini

end CompileCache
