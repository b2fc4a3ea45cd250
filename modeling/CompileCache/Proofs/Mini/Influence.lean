import CompileCache.Proofs.Mini.Footprint

/-!
# Influence — which changes of a source a compiler can notice

* `Source.NothingNew`: a second source has no path with content that had none in the first.
* `diagnose_eq_ok_iff`, `compile_eq_ok_iff`: when a path is checked or compiled, and to what.
* `refFiles_outputOf`, `typings_outputOf`: the two parts of a report that code depends on.
* **`diagnose_of_agree`**: a report tells all paths that it depends on, as long as nothing new
  appears.
* **`compile_of_agree`**: imported modules have no influence on code, whatever becomes of them.
-/

namespace CompileCache

/-- No path has content in the second source only. -/
def Source.NothingNew (s t : Source) : Prop := ∀ q, s.content q = none → t.content q = none

namespace Mini

/-- **When a path is checked, and what is reported.** -/
theorem diagnose_eq_ok_iff (view : View) (c : Compiler) (path : String) {report : Report} :
    (engine.diagnose view c path).1 = .ok report ↔ c.set.files.contains path = true ∧ ∃ content,
      (view c.set.origin).content path = some content ∧
      (Program.read content).statements.contains .crash = false ∧
      report =
        (outputOf c.set.options (view c.set.origin) path (Program.read content) none).toReport := by
  change diagnoseWith view c.set path = .ok report ↔ _
  rw [diagnoseWith_eq_map view c.set path none]
  constructor
  · intro h
    cases hout : compileWith view c.set path none with
    | error err => rw [hout] at h; cases h
    | ok out =>
      rw [hout] at h
      cases h
      obtain ⟨hp, content, hc, hx, rfl⟩ := compileWith_eq_ok_iff.1 hout
      exact ⟨hp, content, hc, hx, rfl⟩
  · rintro ⟨hp, content, hc, hx, rfl⟩
    rw [compileWith_eq_ok_iff.2 ⟨hp, content, hc, hx, rfl⟩]
    rfl

theorem compile_eq_ok_iff (view : View) (c : Compiler) (path : String) (moduleName : Option String)
    {out : Output} :
    (engine.compile view c path moduleName).1 = .ok out ↔ c.set.files.contains path = true ∧
      ∃ content, (view c.set.origin).content path = some content ∧
      (Program.read content).statements.contains .crash = false ∧
      out = outputOf c.set.options (view c.set.origin) path (Program.read content) moduleName :=
  compileWith_eq_ok_iff

theorem refFiles_outputOf (o : Options) (s : Source) (file : String) (p : Program)
    (moduleName : Option String) : (outputOf o s file p moduleName).references.refFiles =
      .ofList ((p.references file).map (·.2)) := rfl

theorem typings_outputOf (o : Options) (s : Source) (file : String) (p : Program)
    (moduleName : Option String) :
    (outputOf o s file p moduleName).references.typings = typings? s o.types := rfl

section Changes

variable {view view' : View} {c : Compiler} {path : String}
  (hf : (view c.set.origin).Agree (view' c.set.origin) path)

include hf in
/-- **A report tells all paths that it depends on**: a source that agrees on the path itself and on
the reported ones, and in which nothing new appeared, gets the same report, whatever became of the
other paths. -/
theorem diagnose_of_agree {report : Report} (h : (engine.diagnose view c path).1 = .ok report)
    (hcode : AgreeOnCode (view c.set.origin) (view' c.set.origin) report.references)
    (hmodules : AgreeOnModules (view c.set.origin) (view' c.set.origin) report.references)
    (hnew : (view c.set.origin).NothingNew (view' c.set.origin)) :
    (engine.diagnose view' c path).1 = .ok report := by
  obtain ⟨hp, content, hc, hx, rfl⟩ := (diagnose_eq_ok_iff view c path).1 h
  have hc' : (view' c.set.origin).content path = some content := hf.symm.trans hc
  refine (diagnose_eq_ok_iff view' c path).2 ⟨hp, content, hc', hx, ?_⟩
  by_contra hne
  -- a report that differs comes from a specifier that means a file which was not there before
  obtain ⟨-, -, -, q, -, -, -, -, hgone, hthere⟩ :=
    rerouted_of_report_ne rfl hc hf hcode hmodules (Ne.symm hne)
  rw [hnew q hgone] at hthere
  cases hthere

include hf in
/-- **Imported modules have no influence on code**: a source that agrees on the path itself, on the
reported files that it references and on the ambient typings gets the same code, whatever became of
the modules and of all other paths. -/
theorem compile_of_agree {moduleName : Option String} {out : Output}
    (h : (engine.compile view c path moduleName).1 = .ok out)
    (hcode : AgreeOnCode (view c.set.origin) (view' c.set.origin) out.references) :
    ∃ out', (engine.compile view' c path moduleName).1 = .ok out' ∧ out'.code = out.code ∧
      out'.references.refFiles = out.references.refFiles ∧
      out'.references.typings = out.references.typings := by
  obtain ⟨hp, content, hc, hx, rfl⟩ := (compile_eq_ok_iff view c path moduleName).1 h
  have hc' : (view' c.set.origin).content path = some content := hf.symm.trans hc
  refine ⟨_, (compile_eq_ok_iff view' c path moduleName).2 ⟨hp, content, hc', hx, rfl⟩,
    ?_, ?_, ?_⟩
  · exact code_outputOf_congr rfl hcode
  · rw [refFiles_outputOf, refFiles_outputOf]
  · rw [typings_outputOf, typings_outputOf]
    exact typings?_congr hcode.typings

end Changes

/-! ## A file with a reference, a module and typings -/

/-- A file that references another one, and takes a name from a module. -/
def leading : String := "/// <reference path=\"r.ts\" />\nimport { x } from \"./b\";\nlet y = z;"

/-- The module takes the name from a further one. The referenced file is missing. -/
def contentsThen : KeyMap String :=
  .ofList [("a.ts", leading), ("b.ts", "export * from \"./c\";"), ("c.ts", "export const x = 1;"),
    ("t.d.ts", "declare const z: number;"), ("u.ts", "let u = 1;"), ("v.ts", "let v = 1;")]

/-- Two files that the first one does not lead to are changed or removed. -/
def contentsNow : KeyMap String := (contentsThen.insert "u.ts" "let u = 2;").erase "v.ts"

/-- The modules are changed and removed too, and the one that is imported is another file now. -/
def contentsLater : KeyMap String := (contentsNow.erase "b.ts").insert "b" "#!crash"

/-- A compiler that has the file in its working set. -/
def leadingCompiler : Compiler :=
  ⟨"os", ⟨["a.ts"], .live, { types := ["t.d.ts"] }⟩, 0, 0⟩

/-- The contents of the origin of a compiler, whatever that origin is. -/
def viewOf (contents : KeyMap String) : View := fun _ => .ofTable contents

theorem present_leading : contentsThen.get? "a.ts" = some leading := by decide

theorem safe_leading : (Program.read leading).statements.contains .crash = false := by decide

theorem mem_reached_leading {q : String} (h : q ∈ reached (.ofTable contentsThen) "a.ts" leading) :
    q = "b.ts" ∨ q = "c.ts" := by
  have hroots : (Program.read leading).importedFiles (.ofTable contentsThen) "a.ts" = ["b.ts"] := by
    decide
  have hb : contentsThen.get? "b.ts" = some "export * from \"./c\";" := by decide
  have hc : contentsThen.get? "c.ts" = some "export const x = 1;" := by decide
  have hm : q ∈ KeySet.ofList ["b.ts", "c.ts"] := by
    refine Source.mem_of_mem_closure h (by rw [hroots]; decide) ?_
    intro p hp content hcontent q hq
    change contentsThen.get? p = some content at hcontent
    rw [KeySet.mem_ofList, List.mem_cons, List.mem_singleton] at hp
    rcases hp with rfl | rfl
    · cases hb.symm.trans hcontent
      rw [show importedFiles (.ofTable contentsThen) "b.ts" _ = ["c.ts"] by decide] at hq
      rw [List.mem_singleton.1 hq]
      decide
    · cases hc.symm.trans hcontent
      rw [show importedFiles (.ofTable contentsThen) "c.ts" _ = [] by decide] at hq
      cases hq
  simpa using hm

theorem agreeOnCode_leading {contents : KeyMap String}
    (hr : contentsThen.get? "r.ts" = contents.get? "r.ts")
    (ht : contentsThen.get? "t.d.ts" = contents.get? "t.d.ts") :
    AgreeOnCode (.ofTable contentsThen) (.ofTable contents) (outputOf leadingCompiler.set.options
      (.ofTable contentsThen) "a.ts" (Program.read leading) none).references where
  refFiles q hq := by
    have hrefs : ((Program.read leading).references "a.ts").map (·.2) = ["r.ts"] := by decide
    change q ∈ KeySet.ofList (((Program.read leading).references "a.ts").map (·.2)) at hq
    rw [hrefs, KeySet.mem_ofList, List.mem_singleton] at hq
    rw [hq]
    exact hr
  typings set hset q hq := by
    have hdeclared : contentsThen.get? "t.d.ts" = some "declare const z: number;" := by decide
    cases hset
    change q ∈ (Source.ofTable contentsThen).closure references ["t.d.ts"] at hq
    rw [Source.closure_singleton hdeclared (by decide), KeySet.mem_ofList,
      List.mem_singleton] at hq
    rw [hq]
    exact ht

/-- The report on the file stays, whatever becomes of files that it does not lead to. -/
theorem diagnose_leading : contentsNow.get? "u.ts" ≠ contentsThen.get? "u.ts" ∧
    contentsNow.get? "v.ts" ≠ contentsThen.get? "v.ts" ∧
    ∃ report, (engine.diagnose (viewOf contentsThen) leadingCompiler "a.ts").1 = .ok report ∧
      (engine.diagnose (viewOf contentsNow) leadingCompiler "a.ts").1 = .ok report := by
  have hf : (viewOf contentsThen leadingCompiler.set.origin).Agree
      (viewOf contentsNow leadingCompiler.set.origin) "a.ts" :=
    show contentsThen.get? "a.ts" = contentsNow.get? "a.ts" by decide
  have hreport := (diagnose_eq_ok_iff (viewOf contentsThen) leadingCompiler "a.ts").2
    ⟨by decide, leading, present_leading, safe_leading, rfl⟩
  have hcode := agreeOnCode_leading
    (show contentsThen.get? "r.ts" = contentsNow.get? "r.ts" by decide)
    (show contentsThen.get? "t.d.ts" = contentsNow.get? "t.d.ts" by decide)
  have hmodules : AgreeOnModules (.ofTable contentsThen) (.ofTable contentsNow)
      (outputOf leadingCompiler.set.options (.ofTable contentsThen) "a.ts" (Program.read leading)
        none).references := by
    intro q hq
    rcases mem_reached_leading (mem_modules_iff.1 hq).2 with rfl | rfl
    · exact show contentsThen.get? "b.ts" = contentsNow.get? "b.ts" by decide
    · exact show contentsThen.get? "c.ts" = contentsNow.get? "c.ts" by decide
  have hnew : (Source.ofTable contentsThen).NothingNew (.ofTable contentsNow) := by
    intro q hq
    change contentsThen.get? q = none at hq
    change ((contentsThen.insert "u.ts" "let u = 2;").erase "v.ts").get? q = none
    rw [KeyMap.get?_erase, KeyMap.get?_insert, hq]
    have hu : q ≠ "u.ts" := by
      rintro rfl
      exact absurd hq (by decide)
    rw [if_neg hu, ite_self]
  exact ⟨by decide, by decide, _, hreport, diagnose_of_agree hf hreport hcode hmodules hnew⟩

/-- The code of the file stays, whatever becomes of its modules. -/
theorem compile_leading : contentsLater.get? "b.ts" ≠ contentsThen.get? "b.ts" ∧ ∃ out out',
    (engine.compile (viewOf contentsThen) leadingCompiler "a.ts" none).1 = .ok out ∧
    (engine.compile (viewOf contentsLater) leadingCompiler "a.ts" none).1 = .ok out' ∧
    out'.code = out.code ∧ out'.references.refFiles = out.references.refFiles ∧
    out'.references.typings = out.references.typings := by
  have hf : (viewOf contentsThen leadingCompiler.set.origin).Agree
      (viewOf contentsLater leadingCompiler.set.origin) "a.ts" :=
    show contentsThen.get? "a.ts" = contentsLater.get? "a.ts" by decide
  have hout := (compile_eq_ok_iff (viewOf contentsThen) leadingCompiler "a.ts" none).2
    ⟨by decide, leading, present_leading, safe_leading, rfl⟩
  have hcode := agreeOnCode_leading
    (show contentsThen.get? "r.ts" = contentsLater.get? "r.ts" by decide)
    (show contentsThen.get? "t.d.ts" = contentsLater.get? "t.d.ts" by decide)
  obtain ⟨out', hout', h⟩ := compile_of_agree hf hout hcode
  exact ⟨by decide, _, out', hout, hout', h⟩

end Mini

end CompileCache
