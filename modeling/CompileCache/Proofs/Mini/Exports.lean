import CompileCache.Proofs.Mini.Modules

/-!
# Exports — the names that can be imported from a file

* `ReExports`: a re-export in a file means another file; `reExports_iff_leads`.
* `ExportsItself`, `Exports`: a file exports what it binds, what the declared modules have that it
  re-exports, and what the files export that it re-exports; `mem_exportsOf_iff`.
* **`exports_exact`**: collecting the exports of a file comes to an end and finds exactly these
  names, so the imported names that are reported missing are exactly the others.
* `exports_exact_diamond`: files that are re-exported along two ways, and lead back to the first.
-/

namespace CompileCache.Mini

variable {s : Source} {scope : Scope}

/-! ## What a file exports -/

/-- A re-export in a file means another file. -/
def ReExports (s : Source) (scope : Scope) (file target : String) : Prop :=
  ∃ p specifier, program? s file = some p ∧ .exportAll specifier ∈ p.statements ∧
    resolve s scope file specifier = .file target

/-- A file exports a name that it binds, or that a declared module has which it re-exports. -/
inductive ExportsItself (s : Source) (scope : Scope) (file name : String) : Prop
  | binds {p : Program} {keyword : Keyword} {value : Value} (hp : program? s file = some p)
      (hx : .binding true keyword name value ∈ p.statements) : ExportsItself s scope file name
  | declared {p : Program} {specifier : String} {members : KeySet}
      (hp : program? s file = some p) (hx : .exportAll specifier ∈ p.statements)
      (hr : resolve s scope file specifier = .declared members) (hn : name ∈ members) :
      ExportsItself s scope file name

/-- A file exports a name if a file that it leads to by re-exports does so itself. -/
def Exports (s : Source) (scope : Scope) (file name : String) : Prop :=
  ∃ f, Relation.ReflTransGen (ReExports s scope) file f ∧ ExportsItself s scope f name

/-! ## What is found -/

theorem reExports_iff_leads {file target : String} :
    ReExports s scope file target ↔ s.Leads (exportedFiles s) file target := by
  refine Iff.trans ?_ (@leads_iff s scope Statement.exportedSpecifier? file target).symm
  constructor
  · rintro ⟨p, specifier, hp, hx, htarget⟩
    exact ⟨p, _, specifier, hp, hx, rfl, htarget⟩
  · rintro ⟨p, x, specifier, hp, hx, hs, htarget⟩
    cases x with
    | exportAll _ =>
      cases hs
      exact ⟨p, specifier, hp, hx, htarget⟩
    | _ => cases hs

theorem mem_ownExports_iff {file name : String} {x : Statement} :
    name ∈ ownExports s scope file x ↔ (∃ keyword value, x = .binding true keyword name value) ∨
      ∃ specifier members, x = .exportAll specifier ∧
        resolve s scope file specifier = .declared members ∧ name ∈ members := by
  cases x with
  | binding exported keyword bound value =>
    cases exported with
    | false => simp [ownExports]
    | true => simp [ownExports, eq_comm]
  | exportAll specifier =>
    cases h : resolve s scope file specifier <;> simp [ownExports, h, KeySet.mem_toList]
  | _ => simp [ownExports]

theorem mem_ownExportsOf_iff {file name : String} :
    name ∈ ownExportsOf s scope file ↔ ExportsItself s scope file name := by
  rw [mem_ownExportsOf]
  constructor
  · rintro ⟨content, hc, hn⟩
    obtain ⟨x, hx, hn⟩ := List.mem_flatMap.1 hn
    have hp : program? s file = some (Program.read content) :=
      Option.map_eq_some_iff.2 ⟨content, hc, rfl⟩
    rcases mem_ownExports_iff.1 hn with ⟨keyword, value, rfl⟩ | ⟨specifier, members, rfl, hr, hn⟩
    · exact .binds hp hx
    · exact .declared hp hx hr hn
  · rintro (⟨hp, hx⟩ | ⟨hp, hx, hr, hn⟩)
    · obtain ⟨content, hc, rfl⟩ := Option.map_eq_some_iff.1 hp
      exact ⟨content, hc, List.mem_flatMap.2 ⟨_, hx, mem_ownExports_iff.2 (.inl ⟨_, _, rfl⟩)⟩⟩
    · obtain ⟨content, hc, rfl⟩ := Option.map_eq_some_iff.1 hp
      exact ⟨content, hc, List.mem_flatMap.2
        ⟨_, hx, mem_ownExports_iff.2 (.inr ⟨_, _, rfl, hr, hn⟩)⟩⟩

/-- **The names found are those that the file exports.** -/
theorem mem_exportsOf_iff {file name : String} :
    name ∈ exportsOf s scope file ↔ Exports s scope file name := by
  have hreExports : ReExports s scope = s.Leads (exportedFiles s) :=
    funext fun _ => funext fun _ => propext reExports_iff_leads
  unfold Exports
  rw [exportsOf_eq, KeySet.mem_ofList, List.mem_flatMap, hreExports]
  simp only [KeySet.mem_toList, Source.mem_closure, List.mem_singleton, exists_eq_left,
    Source.reaches_iff, mem_ownExportsOf_iff]

instance (s : Source) (scope : Scope) (file name : String) :
    Decidable (Exports s scope file name) := decidable_of_iff _ mem_exportsOf_iff

/-- **The errors for an import of a file**, one for each name that the file does not export. -/
theorem checkItem_imports {file target specifier : String} {names : List String} {p : Program}
    {i : Located} (hi : i.statement = .imports names specifier)
    (hr : resolve s scope file specifier = .file target) : checkItem s scope file p i =
      (names.filter fun n => ¬Exports s scope target n).map (noExportedMember i specifier) := by
  unfold checkItem
  rw [hi]
  dsimp only
  rw [hr]
  dsimp only [missingMembers]
  congr 1
  refine List.filter_congr fun n _ => ?_
  rw [← decide_not]
  exact decide_eq_decide.2 (not_congr mem_exportsOf_iff)

/-- **Exports are exact**, although the files that were visited are shared. Whatever rings and
diamonds the re-exports form, collecting the exports of a file comes to an end; what it finds are
the names that a file exports by itself to which the re-exports lead; and the errors for an import
of a file are one for each of its names that the file does not export. -/
theorem exports_exact (s : Source) (scope : Scope) :
    (∀ file, ∃ w, s.Descends (exportedFiles s) (exportedNames s scope) .empty [file] w ∧
      exportsOf s scope file = w.found) ∧
    (∀ file name, name ∈ exportsOf s scope file ↔ Exports s scope file name) ∧
    ∀ set path a, analyze set s path = .ok a →
      ∀ before i after, a.program.items = before ++ i :: after →
        ∀ names specifier target, i.statement = .imports names specifier →
          resolve s a.scope path specifier = .file target →
          a.report.diagnostics.semantic = checkReferences s path a.program ++
            before.flatMap (checkItem s a.scope path a.program) ++
            (names.filter fun n => ¬Exports s a.scope target n).map
              (noExportedMember i specifier) ++
            after.flatMap (checkItem s a.scope path a.program) := by
  refine ⟨fun file => ⟨_, Source.descends_descend s _ _ .empty [file], rfl⟩,
    fun file name => mem_exportsOf_iff, ?_⟩
  intro set path a h before i after hitems names specifier target hi htarget
  have hsemantic : a.report.diagnostics.semantic = semantic s a.scope path a.program := by
    obtain ⟨-, content, -, -, rfl⟩ := analyze_eq_ok_iff.1 h
    rfl
  rw [hsemantic, semantic, hitems, List.flatMap_append, List.flatMap_cons,
    checkItem_imports hi htarget]
  simp only [List.append_assoc]

/-! ## A diamond -/

/-- A declared module, and an import of a file that does not export all of the names. -/
def importingText : String :=
  "declare module \"pkg\" \x7b export const member: string; \x7d\n" ++
    "import { base, member, other } from \"./top\";"

/-- A file re-exports another one directly and along a second way. That one leads back to it. -/
def diamondTable : KeyMap String := .ofList [("a.ts", importingText),
  ("base.ts", "export * from \"./top\";\nexport const base = 1;"),
  ("left.ts", "export * from \"./base\";\nexport * from \"pkg\";"),
  ("top.ts", "export * from \"./base\";\nexport * from \"./left\";")]

def diamondAnalysis : Analysis :=
  analyzeProgram (.ofTable diamondTable) [] "a.ts" (.read importingText)

theorem exports_diamond (name : String) :
    Exports (.ofTable diamondTable) diamondAnalysis.scope "top.ts" name ↔
      name = "base" ∨ name = "member" := by
  have hown : ∀ e ∈ diamondTable.entries,
      ∀ n ∈ exportedNames (.ofTable diamondTable) diamondAnalysis.scope e.1 e.2,
        n = "base" ∨ n = "member" := by decide +kernel
  constructor
  · rintro ⟨f, -, hname⟩
    obtain ⟨content, hc, hname⟩ := mem_ownExportsOf.1 (mem_ownExportsOf_iff.2 hname)
    exact hown (f, content) ((KeyMap.mem_entries_iff _ _ _).2 hc) name hname
  · have hbase : ReExports (.ofTable diamondTable) diamondAnalysis.scope "top.ts" "base.ts" :=
      reExports_iff_leads.2 ⟨_, rfl, by decide +kernel⟩
    have hleft : ReExports (.ofTable diamondTable) diamondAnalysis.scope "top.ts" "left.ts" :=
      reExports_iff_leads.2 ⟨_, rfl, by decide +kernel⟩
    rintro (rfl | rfl)
    · exact ⟨"base.ts", .single hbase,
        mem_ownExportsOf_iff.1 (mem_ownExportsOf.2 ⟨_, rfl, by decide +kernel⟩)⟩
    · exact ⟨"left.ts", .single hleft,
        mem_ownExportsOf_iff.1 (mem_ownExportsOf.2 ⟨_, rfl, by decide +kernel⟩)⟩

/-- Of the imported names, the one that is exported along neither way is reported missing. -/
theorem exports_exact_diamond :
    analyze ⟨["a.ts"], default, {}⟩ (.ofTable diamondTable) "a.ts" = .ok diamondAnalysis ∧
      ∃ i, diamondAnalysis.report.diagnostics.semantic = [noExportedMember i "./top" "other"] := by
  have h : analyze ⟨["a.ts"], default, {}⟩ (.ofTable diamondTable) "a.ts" = .ok diamondAnalysis :=
    analyze_eq_ok_iff.2 ⟨by decide, importingText, rfl, by decide +kernel, rfl⟩
  obtain ⟨declaration, i, hitems, hd, hi⟩ : ∃ declaration i,
      diamondAnalysis.program.items = [declaration] ++ [i] ∧
      declaration.statement = .declareModule "pkg" ["member"] ∧
      i.statement = .imports ["base", "member", "other"] "./top" :=
    ⟨_, _, rfl, rfl, rfl⟩
  have htarget : resolve (.ofTable diamondTable) diamondAnalysis.scope "a.ts" "./top" =
      .file "top.ts" := resolve_eq_file_iff.2 (by decide)
  have hreferences : checkReferences (.ofTable diamondTable) "a.ts" diamondAnalysis.program = [] :=
    rfl
  have hmissing : (["base", "member", "other"].filter fun n =>
      ¬Exports (.ofTable diamondTable) diamondAnalysis.scope "top.ts" n) = ["other"] := by
    simp [exports_diamond]
  refine ⟨h, i, ((exports_exact _ .empty).2.2 _ _ _ h _ _ _ hitems _ _ _ hi htarget).trans ?_⟩
  rw [hreferences, hmissing]
  simp [checkItem, hd]

end CompileCache.Mini
