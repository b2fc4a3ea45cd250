import CompileCache.Proofs.Mini.Footprint

/-!
# Modules — the files that a file leads to by imports and re-exports

* `Imports`: an import or a re-export in a file means another file; `imports_iff_leads`.
* **`modules_exact`**: collecting modules comes to an end on every call, and the modules that are
  reported for a file are the other files that it leads to, over any number of steps.
* `modules_exact_ring`: files that import each other in a ring.
-/

namespace CompileCache.Mini

variable {s : Source} {scope : Scope}

/-- An import or a re-export in a file means another file. -/
def Imports (s : Source) (scope : Scope) (file target : String) : Prop :=
  ∃ p x specifier, program? s file = some p ∧ x ∈ p.statements ∧
    x.specifier? = some specifier ∧ resolve s scope file specifier = .file target

theorem leads_iff {select : Statement → Option String} {file target : String} :
    s.Leads (fun file content =>
      ((Program.read content).statements.filterMap select).filterMap (resolveFile? s file))
      file target ↔ ∃ p x specifier, program? s file = some p ∧ x ∈ p.statements ∧
        select x = some specifier ∧ resolve s scope file specifier = .file target := by
  constructor
  · rintro ⟨content, hc, htarget⟩
    obtain ⟨specifier, hmem, htarget⟩ := List.mem_filterMap.1 htarget
    obtain ⟨x, hx, hs⟩ := List.mem_filterMap.1 hmem
    exact ⟨Program.read content, x, specifier, Option.map_eq_some_iff.2 ⟨content, hc, rfl⟩, hx, hs,
      resolve_eq_file_iff.2 htarget⟩
  · rintro ⟨p, x, specifier, hp, hx, hs, htarget⟩
    obtain ⟨content, hc, rfl⟩ := Option.map_eq_some_iff.1 hp
    exact ⟨content, hc, List.mem_filterMap.2
      ⟨specifier, List.mem_filterMap.2 ⟨x, hx, hs⟩, resolve_eq_file_iff.1 htarget⟩⟩

theorem imports_iff_leads {file target : String} :
    Imports s scope file target ↔ s.Leads (importedFiles s) file target := leads_iff.symm

theorem transGen_imports_iff {file content q : String} (hc : s.content file = some content) :
    Relation.TransGen (Imports s scope) file q ↔ q ∈ reached s file content := by
  have himports : Imports s scope = s.Leads (importedFiles s) :=
    funext fun _ => funext fun _ => propext imports_iff_leads
  rw [himports, Relation.TransGen.head'_iff, reached, Source.mem_closure]
  simp only [Source.reaches_iff]
  constructor
  · rintro ⟨r, ⟨text, ht, hr⟩, hq⟩
    cases hc.symm.trans ht
    exact ⟨r, hr, hq⟩
  · rintro ⟨r, hr, hq⟩
    exact ⟨r, ⟨content, hc, hr⟩, hq⟩

/-- **The modules of a file are exactly the other files that it leads to** by imports and
re-exports, over any number of steps, whatever rings the imports form. Collecting them comes to an
end on every call. -/
theorem modules_exact {set : WorkingSet} {file : String} {a : Analysis}
    (h : analyze set s file = .ok a) :
    (∀ modules path, ∃ w, s.Descends (importedFiles s) (fun _ _ => []) modules [path] w ∧
      collectModules s modules path = w.seen) ∧
    ∀ q, q ∈ a.report.references.modules ↔
      q ≠ file ∧ Relation.TransGen (Imports s a.scope) file q := by
  refine ⟨fun modules path => ⟨_, Source.descends_descend s _ _ modules [path], rfl⟩, fun q => ?_⟩
  obtain ⟨-, content, hc, -, rfl⟩ := analyze_eq_ok_iff.1 h
  rw [transGen_imports_iff hc]
  change q ∈ (outputOf set.options s file (Program.read content) none).references.modules ↔ _
  exact mem_modules_iff

/-! ## A ring -/

/-- A file that imports from a file that re-exports a file that imports from the first one. -/
def ringSource : Source := .ofTable (.ofList [("a.ts", "import { c } from \"./b\";"),
  ("b.ts", "export * from \"./c\";"),
  ("c.ts", "import { a } from \"./a\";\nexport const c = 1;")])

theorem imports_ring (scope : Scope) : Imports ringSource scope "a.ts" "b.ts" ∧
    Imports ringSource scope "b.ts" "c.ts" ∧ Imports ringSource scope "c.ts" "a.ts" := by
  simp only [imports_iff_leads]
  exact ⟨⟨_, rfl, by decide⟩, ⟨_, rfl, by decide⟩, ⟨_, rfl, by decide⟩⟩

/-- In a ring the other files are modules of a file. It leads to itself, but is none of its own. -/
theorem modules_exact_ring :
    ∃ a, analyze ⟨["a.ts"], default, {}⟩ ringSource "a.ts" = .ok a ∧
      Relation.TransGen (Imports ringSource a.scope) "a.ts" "a.ts" ∧
      "b.ts" ∈ a.report.references.modules ∧ "c.ts" ∈ a.report.references.modules ∧
      ¬"a.ts" ∈ a.report.references.modules := by
  obtain ⟨a, h⟩ : ∃ a, analyze ⟨["a.ts"], default, {}⟩ ringSource "a.ts" = .ok a :=
    ⟨_, analyze_eq_ok_iff.2 ⟨by decide, "import { c } from \"./b\";", rfl, by decide, rfl⟩⟩
  obtain ⟨hab, hbc, hca⟩ := imports_ring a.scope
  have hb : Relation.TransGen (Imports ringSource a.scope) "a.ts" "b.ts" := .single hab
  have hc : Relation.TransGen (Imports ringSource a.scope) "a.ts" "c.ts" := hb.tail hbc
  have hmodules := (modules_exact h).2
  exact ⟨a, h, hc.tail hca, (hmodules _).2 ⟨by decide, hb⟩, (hmodules _).2 ⟨by decide, hc⟩,
    fun ha => ((hmodules _).1 ha).1 rfl⟩

end CompileCache.Mini
