import CompileCache.Mini.Engine
import CompileCache.Proofs.Source.Descent
import Mathlib.Data.List.Basic

/-!
# Footprint — which contents code and diagnostics depend on

* `closure_congr`: a closure does not depend on contents outside of it.
* `moduleClosure_eq`, `exportsOf_eq`: modules and exports, told by closures.
* `outputOf`: what compiling a program gives; **`compileWith_eq_ok_iff`**, `diagnoseWith_eq_map`:
  when a compiler of the small language answers, and what.
* `AgreeOnCode`, **`code_outputOf_congr`**: code depends on the referenced files and on the ambient
  typings only.
* `AgreeOnModules`, `SameRoutes`, **`report_outputOf_congr`**: a report depends on the referenced
  files, the ambient typings, the modules, and on which files the specifiers in these mean.
* **`rerouted_of_report_ne`**: if all that was looked at is unchanged and the report differs all
  the same, then a specifier means a file that was not there.
-/

namespace CompileCache

/-! ## Closures -/

namespace Source

variable {s t : Source} {next next' : String → String → List String} {roots : List String}

theorem root_mem_closure {p : String} (h : p ∈ roots) : p ∈ s.closure next roots :=
  mem_closure.2 ⟨p, h, .refl p⟩

theorem Reaches.tail {p q r content : String} (h : Reaches s next p q)
    (hc : s.content q = some content) (hr : r ∈ next q content) : Reaches s next p r :=
  h.trans (.step hc hr (.refl r))

theorem closed_closure {p q content : String} (hp : p ∈ s.closure next roots)
    (hc : s.content p = some content) (hq : q ∈ next p content) : q ∈ s.closure next roots := by
  obtain ⟨r, hr, h⟩ := mem_closure.1 hp
  exact mem_closure.2 ⟨r, hr, h.tail hc hq⟩

/-- The least set with the roots that holds what the contents of its members lead to. -/
theorem mem_of_mem_closure {c : KeySet} {p : String} (hp : p ∈ s.closure next roots)
    (hroots : ∀ r ∈ roots, r ∈ c)
    (hc : ∀ p ∈ c, ∀ content, s.content p = some content → ∀ q ∈ next p content, q ∈ c) :
    p ∈ c := by
  obtain ⟨r, hr, h⟩ := mem_closure.1 hp
  exact h.mem_of_closed (hroots r hr) hc

/-- **A closure does not depend on contents outside of it.** -/
theorem closure_congr (ha : ∀ p ∈ s.closure next roots, s.Agree t p)
    (hn : ∀ p ∈ s.closure next roots, ∀ content, s.content p = some content →
      next' p content = next p content) :
    t.closure next' roots = s.closure next roots := by
  have step : ∀ p ∈ s.closure next roots, ∀ content, t.content p = some content →
      ∀ q ∈ next' p content, q ∈ s.closure next roots := by
    intro p hp content hc q hq
    have hc' : s.content p = some content := (ha p hp).trans hc
    rw [hn p hp content hc'] at hq
    exact closed_closure hp hc' hq
  apply KeySet.ext_mem
  intro p
  constructor
  · intro h
    exact mem_of_mem_closure h (fun r hr => root_mem_closure hr) step
  · intro hp
    obtain ⟨r, hr, h⟩ := mem_closure.1 hp
    have hr' : r ∈ s.closure next roots := root_mem_closure hr
    refine mem_closure.2 ⟨r, hr, ?_⟩
    clear hr hp
    induction h with
    | refl p => exact .refl p
    | @step p q r content hc hq _ ih =>
      have hq' : q ∈ next' p content := by rw [hn p hr' content hc]; exact hq
      have hr₁ := closed_closure hr' hc hq
      exact .step ((ha p hr').symm.trans hc) hq' (ih hr₁)

theorem closure_nil : s.closure next [] = .empty := by
  unfold closure
  rw [closureFrom]

theorem closure_singleton {p content : String} (hc : s.content p = some content)
    (hn : next p content = []) : s.closure next [p] = .ofList [p] := by
  unfold closure
  rw [closureFrom_of_content (KeySet.not_mem_empty p) hc, hn, List.nil_append, closureFrom]
  rfl

end Source

namespace Mini

open Source (Agree)

variable {s t : Source}

/-! ## Modules and exports -/

theorem resolve_eq_file_iff {scope : Scope} {file specifier target : String} :
    resolve s scope file specifier = .file target ↔
      resolveFile? s file specifier = some target := by
  unfold resolve
  cases resolveFile? s file specifier with
  | none => cases scope.modules.get? specifier <;> simp
  | some path => simp

theorem foldl_collectModules (s : Source) (modules : KeySet) (files : List String) :
    files.foldl (collectModules s) modules = s.closureFrom (importedFiles s) modules files := by
  induction files generalizing modules with
  | nil => rw [List.foldl_nil, Source.closureFrom]
  | cons file files ih =>
    have hone : collectModules s modules file = s.closureFrom (importedFiles s) modules [file] :=
      (Source.descends_descend s _ _ modules [file]).seen_eq
    rw [List.foldl_cons, ih, hone, ← Source.closureFrom_append]
    rfl

theorem moduleClosure_eq (s : Source) (roots : List String) :
    moduleClosure s roots = s.closure (importedFiles s) roots := foldl_collectModules s .empty roots

/-- The names that a file exports by itself, re-exported files left out. -/
def ownExportsOf (s : Source) (scope : Scope) (file : String) : List String :=
  ((program? s file).map fun p => p.statements.flatMap (ownExports s scope file)).getD []

theorem mem_ownExportsOf {scope : Scope} {file name : String} :
    name ∈ ownExportsOf s scope file ↔
      ∃ content, s.content file = some content ∧ name ∈ exportedNames s scope file content := by
  unfold ownExportsOf program?
  cases hc : s.content file with
  | none => simp
  | some content => simp [exportedNames]

theorem exportsOf_eq (s : Source) (scope : Scope) (file : String) : exportsOf s scope file =
    .ofList ((s.closure (exportedFiles s) [file]).toList.flatMap (ownExportsOf s scope)) := by
  have hd := Source.descends_descend s (exportedFiles s) (exportedNames s scope) .empty [file]
  refine KeySet.ext_mem fun name => hd.mem_found.trans ?_
  rw [hd.seen_eq, KeySet.mem_ofList, List.mem_flatMap]
  simp only [KeySet.not_mem_empty, not_false_eq_true, and_true, mem_ownExportsOf,
    KeySet.mem_toList, exists_and_left]
  rfl

/-! ## What a compiler answers -/

/-- What compiling a program gives. -/
def outputOf (o : Options) (s : Source) (file : String) (p : Program) (moduleName : Option String) :
    Output :=
  let a := analyzeProgram s o.types file p
  ⟨a.report, emit? o file moduleName a⟩

theorem analyze_eq_ok_iff {set : WorkingSet} {file : String} {a : Analysis} :
    analyze set s file = .ok a ↔ set.files.contains file = true ∧ ∃ content,
      s.content file = some content ∧
      (Program.read content).statements.contains .crash = false ∧
      a = analyzeProgram s set.options.types file (Program.read content) := by
  unfold analyze program?
  cases hf : set.files.contains file with
  | false => simp
  | true =>
    cases hc : s.content file with
    | none => simp
    | some content =>
      cases hx : (Program.read content).statements.contains .crash with
      | true => simp_all
      | false =>
        simp only [Bool.true_eq_false, if_false, Option.map_some, true_and]
        rw [hx, if_neg Bool.false_ne_true]
        constructor
        · intro h
          exact ⟨content, rfl, hx, (Except.ok.inj h).symm⟩
        · rintro ⟨content', h, -, rfl⟩
          cases h
          rfl

/-- **When a path compiles, and to what.** -/
theorem compileWith_eq_ok_iff {view : View} {set : WorkingSet} {path : String}
    {moduleName : Option String} {out : Output} :
    compileWith view set path moduleName = .ok out ↔ set.files.contains path = true ∧ ∃ content,
      (view set.origin).content path = some content ∧
      (Program.read content).statements.contains .crash = false ∧
      out = outputOf set.options (view set.origin) path (Program.read content) moduleName := by
  unfold compileWith
  cases h : analyze set (view set.origin) path with
  | error e =>
    have hn : ∀ a, analyze set (view set.origin) path ≠ .ok a := by intro a; rw [h]; simp
    constructor
    · intro h'; simp [Except.map] at h'
    · rintro ⟨hf, content, hc, hx, -⟩
      exact absurd (analyze_eq_ok_iff.2 ⟨hf, content, hc, hx, rfl⟩) (hn _)
  | ok a =>
    obtain ⟨hf, content, hc, hx, rfl⟩ := analyze_eq_ok_iff.1 h
    constructor
    · intro h'
      exact ⟨hf, content, hc, hx, (Except.ok.inj h').symm⟩
    · rintro ⟨-, content', hc', -, rfl⟩
      rw [hc] at hc'
      cases hc'
      rfl

theorem diagnoseWith_eq_map (view : View) (set : WorkingSet) (path : String)
    (moduleName : Option String) :
    diagnoseWith view set path = (compileWith view set path moduleName).map (·.toReport) := by
  unfold diagnoseWith compileWith
  cases analyze set (view set.origin) path <;> rfl

/-! ## Code -/

/-- Two sources agree on all that code depends on. -/
structure AgreeOnCode (s t : Source) (r : References) : Prop where
  refFiles : ∀ q ∈ r.refFiles, s.Agree t q
  typings : ∀ set, r.typings = some set → ∀ q ∈ set, s.Agree t q

theorem absorbFile_congr {path : String} (h : s.Agree t path) (scope : Scope) :
    Scope.absorbFile t scope path = Scope.absorbFile s scope path := by
  unfold Scope.absorbFile program?
  rw [show t.content path = s.content path from h.symm]

theorem foldl_absorbFile_congr {l : List String} (h : ∀ q ∈ l, s.Agree t q) (scope : Scope) :
    l.foldl (Scope.absorbFile t) scope = l.foldl (Scope.absorbFile s) scope := by
  induction l generalizing scope with
  | nil => rfl
  | cons q l ih =>
    rw [List.foldl_cons, List.foldl_cons, absorbFile_congr (h q List.mem_cons_self)]
    exact ih (fun q hq => h q (List.mem_cons_of_mem _ hq)) _

theorem typings?_congr {roots : List String}
    (h : ∀ set, typings? s roots = some set → ∀ q ∈ set, s.Agree t q) :
    typings? t roots = typings? s roots := by
  unfold typings? at h ⊢
  split
  · rfl
  · next hr =>
    rw [if_neg hr] at h
    unfold typingsClosure
    rw [Source.closure_congr (h _ rfl) fun _ _ _ _ => rfl]

theorem typingsScope_congr {roots : List String}
    (h : ∀ set, typings? s roots = some set → ∀ q ∈ set, s.Agree t q) :
    typingsScope t roots = typingsScope s roots := by
  unfold typingsScope
  rw [typings?_congr h]
  cases hs : typings? s roots with
  | none => rfl
  | some set => exact foldl_absorbFile_congr (fun q hq => h set hs q (KeySet.mem_toList.1 hq)) _

theorem fileScope_congr {roots : List String} {file : String} {p : Program}
    (h : AgreeOnCode s t (referencesOf s roots file p)) :
    fileScope t roots file p = fileScope s roots file p := by
  unfold fileScope referenceScope
  rw [typingsScope_congr h.typings]
  rw [foldl_absorbFile_congr fun q hq => h.refFiles q (KeySet.mem_ofList.2 hq)]

theorem emit?_congr {o o' : Options} (ho : o.emit = o'.emit) (file : String)
    (moduleName : Option String) {a a' : Analysis} (hp : a.program = a'.program)
    (hs : a.scope = a'.scope) : emit? o file moduleName a = emit? o' file moduleName a' := by
  have h : Style.of o = Style.of o' := by
    unfold Style.of
    rw [show o.target = o'.target from congrArg EmitOptions.target ho,
      show o.module = o'.module from congrArg EmitOptions.module ho,
      show o.strict = o'.strict from congrArg EmitOptions.strict ho]
  unfold emit?
  rw [h, hp, hs]

/-- **Code depends on the referenced files and on the ambient typings only.** -/
theorem code_outputOf_congr {o o' : Options} (ho : o.emit = o'.emit) {file : String} {p : Program}
    {moduleName : Option String}
    (h : AgreeOnCode s t (outputOf o s file p moduleName).references) :
    (outputOf o' t file p moduleName).code = (outputOf o s file p moduleName).code := by
  have ht : o.types = o'.types := congrArg EmitOptions.types ho
  refine emit?_congr ho.symm file moduleName rfl ?_
  change fileScope t o'.types file p = fileScope s o.types file p
  rw [← ht]
  exact fileScope_congr h

/-! ## Reports -/

/-- The specifiers of the imports and re-exports of a content. -/
def specifiersOf (content : String) : List String :=
  (Program.read content).statements.filterMap Statement.specifier?

/-- Two sources agree on all that only diagnostics depend on. -/
def AgreeOnModules (s t : Source) (r : References) : Prop := ∀ q ∈ r.modules, s.Agree t q

/-- The specifiers in a file and in the modules that it leads to mean the same files. -/
def SameRoutes (s t : Source) (file : String) (r : References) : Prop :=
  ∀ f content, f = file ∨ f ∈ r.modules → s.content f = some content →
    ∀ specifier ∈ specifiersOf content, resolveFile? t f specifier = resolveFile? s f specifier

theorem exportedSpecifier_le {x : Statement} {specifier : String}
    (h : x.exportedSpecifier? = some specifier) : x.specifier? = some specifier := by
  cases x <;> simp_all [Statement.exportedSpecifier?, Statement.specifier?]

theorem exportedFiles_subset {file content q : String} (h : q ∈ exportedFiles s file content) :
    q ∈ importedFiles s file content := by
  unfold exportedFiles at h
  obtain ⟨specifier, hs, hq⟩ := List.mem_filterMap.1 h
  obtain ⟨x, hx, he⟩ := List.mem_filterMap.1 hs
  exact List.mem_filterMap.2 ⟨specifier, List.mem_filterMap.2 ⟨x, hx, exportedSpecifier_le he⟩, hq⟩

theorem resolve_congr {scope : Scope} {file specifier : String}
    (h : resolveFile? t file specifier = resolveFile? s file specifier) :
    resolve t scope file specifier = resolve s scope file specifier := by
  unfold resolve; rw [h]

section Modules

variable {file content : String} {o : Options} {moduleName : Option String}

/-- The modules of a file, the file itself included if it leads to itself. -/
abbrev reached (s : Source) (file content : String) : KeySet :=
  s.closure (importedFiles s) ((Program.read content).importedFiles s file)

theorem mem_modules_iff {q : String} :
    q ∈ (outputOf o s file (Program.read content) moduleName).references.modules ↔
      q ≠ file ∧ q ∈ reached s file content := by
  unfold reached
  rw [← moduleClosure_eq]
  exact KeySet.mem_erase

theorem eq_or_mem_modules (o : Options) (moduleName : Option String) {q : String}
    (h : q ∈ reached s file content) :
    q = file ∨ q ∈ (outputOf o s file (Program.read content) moduleName).references.modules := by
  by_cases hq : q = file
  · exact .inl hq
  · exact .inr (mem_modules_iff.2 ⟨hq, h⟩)

theorem agree_reached (hf : s.Agree t file)
    (hm : AgreeOnModules s t (outputOf o s file (Program.read content) moduleName).references)
    {q : String} (h : q ∈ reached s file content) : s.Agree t q := by
  rcases eq_or_mem_modules o moduleName h with rfl | h
  · exact hf
  · exact hm q h

variable (hc : s.content file = some content)
  (hr : SameRoutes s t file (outputOf o s file (Program.read content) moduleName).references)

include hr in
theorem resolveFile?_reached {q text specifier : String} (h : q ∈ reached s file content)
    (ht : s.content q = some text) (hs : specifier ∈ specifiersOf text) :
    resolveFile? t q specifier = resolveFile? s q specifier :=
  hr q text (eq_or_mem_modules o moduleName h) ht specifier hs

include hr in
theorem importedFiles_reached {q text : String} (h : q ∈ reached s file content)
    (ht : s.content q = some text) : importedFiles t q text = importedFiles s q text :=
  List.filterMap_congr fun _ hs => resolveFile?_reached hr h ht hs

include hc hr in
theorem importedFiles_file :
    (Program.read content).importedFiles t file = (Program.read content).importedFiles s file :=
  List.filterMap_congr fun specifier hs => hr file content (.inl rfl) hc specifier hs

include hc hr in
theorem reached_congr (hf : s.Agree t file)
    (hm : AgreeOnModules s t (outputOf o s file (Program.read content) moduleName).references) :
    reached t file content = reached s file content := by
  unfold reached
  rw [importedFiles_file hc hr]
  exact Source.closure_congr (fun q hq => agree_reached hf hm hq)
    fun q hq text ht => importedFiles_reached hr hq ht

/-- What a module of a file exports on from others is a module of the file. -/
theorem mem_reached_of_exported {q r : String} (hq : q ∈ reached s file content)
    (h : r ∈ s.closure (exportedFiles s) [q]) : r ∈ reached s file content := by
  refine Source.mem_of_mem_closure h (by simpa using hq) ?_
  intro p hp text ht q hq
  exact Source.closed_closure hp ht (exportedFiles_subset hq)

include hr in
theorem exportedFiles_reached {q text : String} (h : q ∈ reached s file content)
    (ht : s.content q = some text) : exportedFiles t q text = exportedFiles s q text := by
  refine List.filterMap_congr fun specifier hs => resolveFile?_reached hr h ht ?_
  obtain ⟨x, hx, he⟩ := List.mem_filterMap.1 hs
  exact List.mem_filterMap.2 ⟨x, hx, exportedSpecifier_le he⟩

include hr in
theorem ownExports_reached {scope : Scope} {q text : String} (h : q ∈ reached s file content)
    (ht : s.content q = some text) {x : Statement} (hx : x ∈ (Program.read text).statements) :
    ownExports t scope q x = ownExports s scope q x := by
  cases x with
  | exportAll specifier =>
    have hs : specifier ∈ specifiersOf text := List.mem_filterMap.2 ⟨_, hx, rfl⟩
    simp only [ownExports]
    rw [resolve_congr (resolveFile?_reached hr h ht hs)]
  | binding exported _ _ _ => cases exported <;> rfl
  | _ => rfl

include hr in
theorem ownExportsOf_reached (hf : s.Agree t file)
    (hm : AgreeOnModules s t (outputOf o s file (Program.read content) moduleName).references)
    {scope : Scope} {q : String} (h : q ∈ reached s file content) :
    ownExportsOf t scope q = ownExportsOf s scope q := by
  unfold ownExportsOf program?
  rw [show t.content q = s.content q from (agree_reached hf hm h).symm]
  cases ht : s.content q with
  | none => rfl
  | some text =>
    change (Program.read text).statements.flatMap _ = (Program.read text).statements.flatMap _
    exact List.flatMap_congr fun x hx => ownExports_reached hr h ht hx

include hr in
theorem exportsOf_reached (hf : s.Agree t file)
    (hm : AgreeOnModules s t (outputOf o s file (Program.read content) moduleName).references)
    {scope : Scope} {q : String} (h : q ∈ reached s file content) :
    exportsOf t scope q = exportsOf s scope q := by
  have hclosure : t.closure (exportedFiles t) [q] = s.closure (exportedFiles s) [q] :=
    Source.closure_congr (fun r hr => agree_reached hf hm (mem_reached_of_exported h hr))
      fun r hr' text ht => exportedFiles_reached hr (mem_reached_of_exported h hr') ht
  rw [exportsOf_eq, exportsOf_eq, hclosure]
  congr 1
  refine List.flatMap_congr fun r hr' => ?_
  exact ownExportsOf_reached hr hf hm (mem_reached_of_exported h (KeySet.mem_toList.1 hr'))

theorem mem_reached_of_resolve {scope : Scope} {specifier q : String}
    (hs : specifier ∈ specifiersOf content) (h : resolve s scope file specifier = .file q) :
    q ∈ reached s file content :=
  Source.root_mem_closure (List.mem_filterMap.2 ⟨specifier, hs, resolve_eq_file_iff.1 h⟩)

include hc hr in
theorem checkItem_congr (hf : s.Agree t file)
    (hm : AgreeOnModules s t (outputOf o s file (Program.read content) moduleName).references)
    {scope : Scope} {i : Located} (hi : i ∈ (Program.read content).items) :
    checkItem t scope file (Program.read content) i =
      checkItem s scope file (Program.read content) i := by
  have hx : i.statement ∈ (Program.read content).statements := List.mem_map.2 ⟨i, hi, rfl⟩
  unfold checkItem
  cases h : i.statement with
  | imports names specifier =>
    have hs : specifier ∈ specifiersOf content := List.mem_filterMap.2 ⟨_, hx, by rw [h]; rfl⟩
    dsimp only
    rw [resolve_congr (hr file content (.inl rfl) hc specifier hs)]
    cases hq : resolve s scope file specifier with
    | file q => dsimp only; rw [exportsOf_reached hr hf hm (mem_reached_of_resolve hs hq)]
    | declared members => rfl
    | unresolved => rfl
  | exportAll specifier =>
    have hs : specifier ∈ specifiersOf content := List.mem_filterMap.2 ⟨_, hx, by rw [h]; rfl⟩
    dsimp only
    rw [resolve_congr (hr file content (.inl rfl) hc specifier hs)]
  | binding _ _ _ value => cases value <;> rfl
  | _ => rfl

end Modules

theorem checkReferences_congr {file : String} {p : Program}
    (h : ∀ q ∈ (p.references file).map (·.2), s.Agree t q) :
    checkReferences t file p = checkReferences s file p := by
  refine List.filterMap_congr fun r hr => ?_
  unfold Source.holds
  rw [show t.content r.2 = s.content r.2 from (h r.2 (List.mem_map.2 ⟨r, hr, rfl⟩)).symm]

/-- **A report depends on the referenced files, the ambient typings and the modules only**, as far
as the specifiers in these mean the same files. -/
theorem report_outputOf_congr {o o' : Options} (ho : o.emit = o'.emit) {file content : String}
    {moduleName moduleName' : Option String} (hc : s.content file = some content)
    (hf : s.Agree t file)
    (h : AgreeOnCode s t (outputOf o s file (Program.read content) moduleName).references)
    (hm : AgreeOnModules s t (outputOf o s file (Program.read content) moduleName).references)
    (hr : SameRoutes s t file (outputOf o s file (Program.read content) moduleName).references) :
    (outputOf o' t file (Program.read content) moduleName').toReport =
      (outputOf o s file (Program.read content) moduleName).toReport := by
  have ht : o.types = o'.types := congrArg EmitOptions.types ho
  have hscope : fileScope t o.types file (Program.read content) =
      fileScope s o.types file (Program.read content) := fileScope_congr h
  have hrefs : ∀ q ∈ ((Program.read content).references file).map (·.2), s.Agree t q :=
    fun q hq => h.refFiles q (KeySet.mem_ofList.2 hq)
  change (analyzeProgram t o'.types file _).report = (analyzeProgram s o.types file _).report
  rw [← ht]
  have hreached : moduleClosure t ((Program.read content).importedFiles t file) =
      moduleClosure s ((Program.read content).importedFiles s file) := by
    rw [moduleClosure_eq, moduleClosure_eq]
    exact reached_congr hc hr hf hm
  unfold analyzeProgram referencesOf semantic
  dsimp only
  rw [hscope, checkReferences_congr hrefs, typings?_congr h.typings, hreached]
  rw [List.flatMap_congr fun i hi => checkItem_congr hc hr hf hm hi]

/-! ## What else can change a report -/

theorem find?_of_find?_ne {p p' : String → Bool} {l : List String} {a b : String}
    (h : l.find? p = some a) (h' : l.find? p' = some b) (ha : p' a = true) (hne : b ≠ a) :
    p b = false := by
  induction l with
  | nil => simp at h
  | cons x l ih =>
    rw [List.find?_cons] at h h'
    cases hx : p x with
    | true =>
      rw [hx] at h
      cases Option.some.inj h
      rw [ha] at h'
      exact absurd (Option.some.inj h').symm hne
    | false =>
      rw [hx] at h
      cases hx' : p' x with
      | true =>
        rw [hx'] at h'
        cases Option.some.inj h'
        exact hx
      | false =>
        rw [hx'] at h'
        exact ih h h'

/-- If what a specifier meant is still there, it means another file only if that was added. -/
theorem added_of_resolveFile?_ne {file specifier : String}
    (hk : ∀ q, resolveFile? s file specifier = some q → s.Agree t q)
    (h : resolveFile? t file specifier ≠ resolveFile? s file specifier) :
    ∃ q, resolveFile? t file specifier = some q ∧ s.content q = none ∧
      (t.content q).isSome = true := by
  unfold resolveFile? at h hk ⊢
  split at h
  · next hrel =>
    rw [if_pos hrel] at hk ⊢
    cases hs : (candidates file specifier).find? s.holds with
    | none =>
      cases ht : (candidates file specifier).find? t.holds with
      | none => rw [hs, ht] at h; exact absurd rfl h
      | some q =>
        have hq := List.find?_eq_none.1 hs q (List.mem_of_find?_eq_some ht)
        have hq' : t.holds q = true := List.find?_some ht
        exact ⟨q, rfl, by simpa [Source.holds] using hq, hq'⟩
    | some q₀ =>
      have hs₀ : s.holds q₀ = true := List.find?_some hs
      have h₀ : t.holds q₀ = true := by
        rw [Source.holds, ← hk q₀ hs]
        exact hs₀
      cases ht : (candidates file specifier).find? t.holds with
      | none => exact absurd h₀ (List.find?_eq_none.1 ht q₀ (List.mem_of_find?_eq_some hs))
      | some q =>
        rw [hs, ht] at h
        have hq := find?_of_find?_ne hs ht h₀ fun e => h (congrArg some e)
        have hq' : t.holds q = true := List.find?_some ht
        exact ⟨q, rfl, by simpa [Source.holds] using hq, hq'⟩
  · exact absurd rfl h

/-- A specifier in a file, or in a module that it leads to, means a file that was not there. -/
def Rerouted (s t : Source) (file : String) (r : References) : Prop :=
  ∃ f content specifier q, (f = file ∨ f ∈ r.modules) ∧ s.content f = some content ∧
    specifier ∈ specifiersOf content ∧ resolveFile? t f specifier = some q ∧
    s.content q = none ∧ (t.content q).isSome = true

/-- **If all that was looked at is unchanged, a report can differ only if a specifier means a file
that was not there.** -/
theorem rerouted_of_report_ne {o o' : Options} (ho : o.emit = o'.emit) {file content : String}
    {moduleName moduleName' : Option String} (hc : s.content file = some content)
    (hf : s.Agree t file)
    (h : AgreeOnCode s t (outputOf o s file (Program.read content) moduleName).references)
    (hm : AgreeOnModules s t (outputOf o s file (Program.read content) moduleName).references)
    (hne : (outputOf o' t file (Program.read content) moduleName').toReport ≠
      (outputOf o s file (Program.read content) moduleName).toReport) :
    Rerouted s t file (outputOf o s file (Program.read content) moduleName).references := by
  by_contra hno
  -- reports agree as soon as every specifier on the way means what it meant
  refine hne (report_outputOf_congr ho hc hf h hm ?_)
  intro f text hmem ht specifier hs
  by_contra hroute
  have hreached : ∀ q, resolveFile? s f specifier = some q → q ∈ reached s file content := by
    intro q hq
    have hq' : q ∈ importedFiles s f text := List.mem_filterMap.2 ⟨specifier, hs, hq⟩
    rcases hmem with rfl | hmem
    · rw [hc] at ht
      cases ht
      exact Source.root_mem_closure hq'
    · exact Source.closed_closure (mem_modules_iff.1 hmem).2 ht hq'
  obtain ⟨q, hq, hn, hq'⟩ :=
    added_of_resolveFile?_ne (fun q hq => agree_reached hf hm (hreached q hq)) hroute
  exact hno ⟨f, text, specifier, q, hmem, ht, hs, hq, hn, hq'⟩

/-! ## Files with few imports -/

theorem report_leaf {file : String} {p : Program}
    (hleaf : p.statements.filterMap Statement.specifier? = []) (o : Options) (ho : o.types = [])
    (moduleName : Option String) : (outputOf o s file p moduleName).toReport =
      ⟨⟨p.errors, semantic s (fileScope s [] file p) file p⟩,
      ⟨.ofList ((p.references file).map (·.2)), .empty, none⟩⟩ := by
  have hmodules : p.importedFiles s file = [] := by
    unfold Program.importedFiles
    rw [hleaf]
    rfl
  change (analyzeProgram s o.types file p).report = _
  unfold analyzeProgram referencesOf
  rw [ho, hmodules, moduleClosure_eq, Source.closure_nil]
  rfl

/-- **What a file with one import reports**, if it is of a module that leads nowhere. -/
theorem report_import {file q content specifier : String} {names : List String} {i : Located}
    (hi : i.statement = .imports names specifier)
    (hr : resolveFile? s file specifier = some q) (hne : q ≠ file) (hc : s.content q = some content)
    (hleaf : (Program.read content).statements.filterMap Statement.specifier? = [])
    (o : Options) (ho : o.types = []) (moduleName : Option String) :
    (outputOf o s file ⟨[i], []⟩ moduleName).toReport =
      ⟨⟨[], missingMembers i specifier
        (.ofList (ownExportsOf s (fileScope s [] file ⟨[i], []⟩) q)) names⟩,
      ⟨.empty, .ofList [q], none⟩⟩ := by
  have himported : importedFiles s q content = [] := by
    unfold importedFiles
    rw [hleaf]
    rfl
  have hexported : exportedFiles s q content = [] :=
    List.eq_nil_iff_forall_not_mem.2 fun p hp => by
      have h := exportedFiles_subset hp
      rw [himported] at h
      exact absurd h List.not_mem_nil
  have hmodules : (Program.mk [i] []).importedFiles s file = [q] := by
    unfold Program.importedFiles Program.statements
    simp [hi, Statement.specifier?, hr]
  have hreferences : (Program.mk [i] []).references file = [] := by
    simp [Program.references, hi]
  have hcheck : ∀ scope, checkItem s scope file ⟨[i], []⟩ i =
      missingMembers i specifier (.ofList (ownExportsOf s scope q)) names := by
    intro scope
    unfold checkItem resolve
    rw [hi]
    dsimp only
    rw [hr]
    dsimp only
    rw [exportsOf_eq, Source.closure_singleton hc hexported]
    change missingMembers i specifier (.ofList (ownExportsOf s scope q ++ [])) names = _
    rw [List.append_nil]
  have herase : KeyMap.erase (KeySet.ofList [q]) file = KeySet.ofList [q] := by
    apply KeySet.ext_mem
    intro k
    rw [KeySet.mem_erase, KeySet.mem_ofList, List.mem_singleton, and_iff_right_iff_imp]
    rintro rfl
    exact hne
  change (analyzeProgram s o.types file ⟨[i], []⟩).report = _
  unfold analyzeProgram semantic referencesOf checkReferences
  dsimp only
  rw [ho, hreferences, hmodules, moduleClosure_eq, Source.closure_singleton hc himported, herase]
  rw [List.flatMap_cons, List.flatMap_nil, hcheck]
  rw [List.append_nil]
  rfl

end Mini

end CompileCache
