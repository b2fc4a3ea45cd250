import CompileCache.Proofs.Mini.Footprint

/-!
# Constants — what becomes of the names that values are

* `Program.Binds`: a file binds a name. `Program.surroundings`: the statements of the ambient
  typings and of the files that it refers to.
* `lastConstant?`: the last literal that a name is bound to; `Scope.constant?_absorbAll`,
  **`constant?_fileScope`**: a scope knows that of a name which the file does not bind.
* **`inlining_exact`**: a name that the file binds is emitted as it is, any other as the last
  literal that the surroundings have for it, or else as it is too.
* `inlining_exact_shadowing`: two constants of one name, and one that the file binds itself.
* **`inlined_import`**: a name that is imported gives way to a constant of the surroundings.
-/

namespace CompileCache.Mini

variable {s : Source} {roots : List String} {file name : String} {p : Program}

/-! ## The last constant -/

/-- The literal that a statement binds a name to. -/
def Statement.constantFor? (name : String) : Statement → Option String
  | .binding _ .constant bound (.literal text) => if bound = name then some text else none
  | _ => none

/-- The last literal that some statements bind a name to. -/
def lastConstant? (name : String) (l : List Statement) : Option String :=
  (l.filterMap (·.constantFor? name)).getLast?

theorem lastConstant?_append (name : String) (l l' : List Statement) :
    lastConstant? name (l ++ l') = (lastConstant? name l').or (lastConstant? name l) := by
  unfold lastConstant?
  rw [List.filterMap_append, List.getLast?_append]

theorem lastConstant?_singleton (name : String) (x : Statement) :
    lastConstant? name [x] = x.constantFor? name := by
  unfold lastConstant?
  cases h : x.constantFor? name <;> simp [h]

namespace Scope

theorem constant?_declare (scope : Scope) (n name : String) :
    (scope.declare n).constant? name = scope.constant? name := by
  unfold declare
  split
  · rfl
  · next h =>
    unfold constant?
    dsimp only
    rw [KeyMap.get?_insert]
    split
    · next hn =>
      have hnone : scope.globals.get? n = none := by
        simpa [KeyMap.contains] using h
      rw [hn, hnone]
      rfl
    · rfl

theorem constant?_absorbStatement (scope : Scope) (x : Statement) (name : String) :
    (scope.absorbStatement x).constant? name =
      (x.constantFor? name).or (scope.constant? name) := by
  cases x with
  | binding exported keyword bound value =>
    match keyword, value with
    | .variable, _ => exact scope.constant?_declare bound name
    | .constant, .name _ => exact scope.constant?_declare bound name
    | .constant, .literal text =>
      simp only [absorbStatement, Statement.constantFor?, constant?, KeyMap.get?_insert]
      by_cases h : bound = name
      · simp [h]
      · simp [h, Ne.symm h]
  | declareConst n => exact scope.constant?_declare n name
  | _ => rfl

/-- **A scope knows the last literal that was absorbed.** -/
theorem constant?_absorbAll (scope : Scope) (l : List Statement) (name : String) :
    (scope.absorbAll l).constant? name = (lastConstant? name l).or (scope.constant? name) := by
  induction l generalizing scope with
  | nil => rfl
  | cons x l ih =>
    have hl : lastConstant? name (x :: l) = (lastConstant? name l).or (x.constantFor? name) := by
      rw [← lastConstant?_singleton]
      exact lastConstant?_append name [x] l
    rw [hl, Option.or_assoc, ← constant?_absorbStatement]
    exact ih (scope.absorbStatement x)

end Scope

/-! ## Where names come from -/

/-- The statements of the file at a path; none if it has no content. -/
def statementsAt (s : Source) (path : String) : List Statement :=
  ((program? s path).map Program.statements).getD []

/-- The statements of the ambient typings in ascending order of their paths, then those of the files
that a program refers to, in the order of its statements. -/
def Program.surroundings (s : Source) (roots : List String) (file : String) (p : Program) :
    List Statement :=
  ((typingsClosure s roots).toList ++ (p.references file).map (·.2)).flatMap (statementsAt s)

/-- A program binds a name. -/
def Program.Binds (p : Program) (name : String) : Prop :=
  ∃ exported keyword value, .binding exported keyword name value ∈ p.statements

theorem any_binds_iff : p.statements.any (·.binds name) = true ↔ p.Binds name := by
  rw [List.any_eq_true]
  constructor
  · rintro ⟨x, hx, hb⟩
    cases x with
    | binding exported keyword bound value =>
      cases of_decide_eq_true hb
      exact ⟨exported, keyword, value, hx⟩
    | _ => cases hb
  · rintro ⟨exported, keyword, value, hx⟩
    exact ⟨_, hx, decide_eq_true rfl⟩

instance (p : Program) (name : String) : Decidable (p.Binds name) :=
  decidable_of_iff _ any_binds_iff

theorem constant?_foldl_absorbFile (s : Source) (paths : List String) (scope : Scope)
    (name : String) : (paths.foldl (Scope.absorbFile s) scope).constant? name =
      (lastConstant? name (paths.flatMap (statementsAt s))).or (scope.constant? name) := by
  induction paths generalizing scope with
  | nil => rfl
  | cons path paths ih =>
    have hfile : (Scope.absorbFile s scope path).constant? name =
        (lastConstant? name (statementsAt s path)).or (scope.constant? name) := by
      unfold Scope.absorbFile statementsAt
      cases program? s path with
      | none => rfl
      | some p => exact scope.constant?_absorbAll p.statements name
    rw [List.foldl_cons, ih, hfile, List.flatMap_cons, lastConstant?_append, Option.or_assoc]

theorem typingsScope_eq (s : Source) (roots : List String) : typingsScope s roots =
    (typingsClosure s roots).toList.foldl (Scope.absorbFile s) .empty := by
  unfold typingsScope typings?
  split
  · next h =>
    have hnil : typingsClosure s [] = .empty := by
      unfold typingsClosure Source.closure
      rw [Source.closureFrom]
    rw [List.isEmpty_iff.1 h, hnil]
    rfl
  · rfl

/-- **The scope of a file knows the last constant of its surroundings** for each name that the file
does not bind. -/
theorem constant?_fileScope (h : ¬p.Binds name) : (fileScope s roots file p).constant? name =
    lastConstant? name (p.surroundings s roots file) := by
  have hown : lastConstant? name p.statements = none := by
    unfold lastConstant?
    rw [List.filterMap_eq_nil_iff.2, List.getLast?_nil]
    intro x hx
    unfold Statement.constantFor?
    split
    · next exported bound text =>
      refine if_neg ?_
      rintro rfl
      exact h ⟨exported, .constant, .literal text, hx⟩
    · rfl
  unfold fileScope Scope.absorb
  rw [Scope.constant?_absorbAll, hown, Option.none_or, referenceScope, typingsScope_eq,
    ← List.foldl_append, constant?_foldl_absorbFile]
  exact Option.or_none

/-! ## Emitted values -/

/-- What the line for a binding begins with. -/
def Style.bindingHead (style : Style) (exported : Bool) (keyword : Keyword) (bound : String) :
    String :=
  if exported then
    if style.modules then "export " ++ style.word keyword ++ " " ++ bound
    else "exports." ++ bound
  else style.word keyword ++ " " ++ bound

theorem emitStatement_binding (style : Style) (value : Value → String) (exported : Bool)
    (keyword : Keyword) (bound : String) (v : Value) :
    emitStatement style value (.binding exported keyword bound v) =
      some (style.bindingHead exported keyword bound ++ " = " ++ value v ++ ";") := by
  cases exported with
  | false => rfl
  | true => cases h : style.modules <;> simp [emitStatement, Style.bindingHead, h]

/-- The text that a value has in the code of a file: a name that the file does not bind gives way to
the last constant of its surroundings. -/
def Program.textOf (s : Source) (roots : List String) (file : String) (p : Program) :
    Value → String
  | .literal text => text
  | .name name =>
    if p.Binds name then name else (lastConstant? name (p.surroundings s roots file)).getD name

theorem inlined_eq (s : Source) (roots : List String) (file : String) (p : Program) :
    inlined (fileScope s roots file p) p.statements = p.textOf s roots file := by
  funext v
  cases v with
  | literal text => rfl
  | name name =>
    by_cases h : p.Binds name
    · exact (if_pos (any_binds_iff.2 h)).trans (if_pos h).symm
    · refine (if_neg fun hb => h (any_binds_iff.1 hb)).trans (Eq.trans ?_ (if_neg h).symm)
      rw [constant?_fileScope h]

/-- The lines for some statements of a program. -/
def Program.lines (o : Options) (s : Source) (file : String) (p : Program) (l : List Statement) :
    List String := l.filterMap (emitStatement (Style.of o) (p.textOf s o.types file))

/-- **The code of a compiled path** has the lines for its statements; none are written for files
with declarations only, and for statements without lines. -/
theorem code_of_compileWith {view : View} {set : WorkingSet} {path : String}
    {moduleName : Option String} {out : Output}
    (h : compileWith view set path moduleName = .ok out) :
    ∃ p, program? (view set.origin) path = some p ∧
      out.code = if isDeclarationFile path = true ∨
          p.lines set.options (view set.origin) path p.statements = [] then none
        else some (terminated (heading (Style.of set.options) moduleName ++
          p.lines set.options (view set.origin) path p.statements)) := by
  obtain ⟨-, content, hc, -, rfl⟩ := compileWith_eq_ok_iff.1 h
  refine ⟨Program.read content, Option.map_eq_some_iff.2 ⟨content, hc, rfl⟩, ?_⟩
  change emit? _ _ _ _ = _
  unfold emit? emittedLines Program.lines
  simp only [analyzeProgram, inlined_eq, Bool.or_eq_true, List.isEmpty_iff]

/-- **What is emitted for a binding to a name.** A name that the file binds, anywhere in it, is
emitted as it is. Any other gives way to the last literal that a constant of this name has in the
ambient typings, in ascending order of their paths, and in the files that are referred to, in the
order of the statements; it is emitted as it is if there is none. -/
theorem inlining_exact {view : View} {set : WorkingSet} {path : String}
    {moduleName : Option String} {out : Output} {code : String}
    (h : compileWith view set path moduleName = .ok out) (hcode : out.code = some code) :
    ∃ p, program? (view set.origin) path = some p ∧
      ∀ before exported keyword bound name after,
        p.statements = before ++ .binding exported keyword bound (.name name) :: after →
        ∃ text, code = terminated (heading (Style.of set.options) moduleName ++
            p.lines set.options (view set.origin) path before ++
            ((Style.of set.options).bindingHead exported keyword bound ++ " = " ++ text ++ ";") ::
              p.lines set.options (view set.origin) path after) ∧
          (p.Binds name → text = name) ∧
          (¬p.Binds name → text = (lastConstant? name
            (p.surroundings (view set.origin) set.options.types path)).getD name) := by
  obtain ⟨p, hp, hlines⟩ := code_of_compileWith h
  refine ⟨p, hp, fun before exported keyword bound name after hx => ?_⟩
  refine ⟨p.textOf (view set.origin) set.options.types path (.name name), ?_, fun hb => if_pos hb,
    fun hb => if_neg hb⟩
  rw [hcode] at hlines
  split at hlines
  · cases hlines
  · rw [Option.some.inj hlines, hx]
    unfold Program.lines
    rw [List.filterMap_append, List.filterMap_cons, emitStatement_binding, List.append_assoc]

/-! ## Constants of one name -/

/-- The text of a file that refers to another one, and binds a name behind its use. -/
def shadowingText : String :=
  "/// <reference path=\"lib.ts\" />\nexport const a = b;\nconst d = c;\nlet c = 2;"

/-- Constants in the typings and in the file that is referred to. -/
def shadowingTable : KeyMap String := .ofList [("a.ts", shadowingText),
  ("lib.ts", "const b = 42;\nconst c = 'x';"), ("t.d.ts", "const b = 1;")]

def shadowingSet : WorkingSet := ⟨["a.ts"], .table shadowingTable, { types := ["t.d.ts"] }⟩

theorem typingsClosure_shadowing :
    typingsClosure (.ofTable shadowingTable) ["t.d.ts"] = .ofList ["t.d.ts"] := by
  unfold typingsClosure Source.closure
  have hc : (Source.ofTable shadowingTable).content "t.d.ts" = some "const b = 1;" := rfl
  rw [Source.closureFrom_of_content (by simp) hc]
  exact Source.closureFrom.eq_1 ..

theorem statements_shadowing : (Program.read shadowingText).statements =
    [.reference "lib.ts", .binding true .constant "a" (.name "b"),
      .binding false .constant "d" (.name "c"), .binding false .variable "c" (.literal "2")] := by
  decide +kernel

/-- The file that is referred to counts more than the typings, and the own name stays. -/
theorem inlining_exact_shadowing : ∃ out code,
    compileWith (Origin.source default) shadowingSet "a.ts" none = .ok out ∧
      out.code = some code ∧ (∃ after, code = terminated ("exports.a = 42;" :: after)) ∧
      ∃ before after, code = terminated (before ++ "const d = c;" :: after) := by
  have h : compileWith (Origin.source default) shadowingSet "a.ts" none =
      .ok (outputOf shadowingSet.options (.ofTable shadowingTable) "a.ts"
        (Program.read shadowingText) none) :=
    compileWith_eq_ok_iff.2
      ⟨by decide, shadowingText, rfl, by rw [statements_shadowing]; decide, rfl⟩
  have hcode : (outputOf shadowingSet.options (.ofTable shadowingTable) "a.ts"
      (Program.read shadowingText) none).code.isSome = true := by decide +kernel
  obtain ⟨code, hcode⟩ := Option.isSome_iff_exists.1 hcode
  obtain ⟨p, hp, hbindings⟩ := inlining_exact h hcode
  cases hp
  obtain ⟨text, htext, -, hlast⟩ := hbindings [.reference "lib.ts"] _ _ _ _ _ statements_shadowing
  obtain ⟨text', htext', hown, -⟩ := hbindings
    [.reference "lib.ts", .binding true .constant "a" (.name "b")] _ _ _ _ _ statements_shadowing
  have hb : ¬(Program.read shadowingText).Binds "b" := by
    rw [← any_binds_iff, statements_shadowing]
    decide
  have hc : (Program.read shadowingText).Binds "c" := by
    rw [← any_binds_iff, statements_shadowing]
    decide
  have hsurroundings : lastConstant? "b" ((Program.read shadowingText).surroundings
      (.ofTable shadowingTable) ["t.d.ts"] "a.ts") = some "42" := by
    unfold Program.surroundings
    rw [typingsClosure_shadowing]
    decide +kernel
  cases hown hc
  cases (hlast hb).trans (congrArg (Option.getD · "b") hsurroundings)
  exact ⟨_, code, h, hcode, ⟨_, htext⟩, _, _, htext'⟩

/-! ## An imported name -/

/-- The text of a file that imports a name which a file that it refers to binds too. -/
def borrowingText : String :=
  "/// <reference path=\"lib.ts\" />\nimport \x7b b \x7d from \"./m\";\nexport const a = b;"

def borrowingSet : WorkingSet := ⟨["a.ts"], .table (.ofList [("a.ts", borrowingText),
  ("lib.ts", "const b = 42;"), ("m.ts", "export const b = 1;")]), {}⟩

/-- **An imported name gives way to a constant of a file that is referred to**, though the import
tells what it means: only the names that the file binds itself are kept. -/
theorem inlined_import :
    (Program.read borrowingText).statements = [.reference "lib.ts", .imports ["b"] "./m",
      .binding true .constant "a" (.name "b")] ∧
    ∃ out, compileWith (Origin.source default) borrowingSet "a.ts" none = .ok out ∧
      out.code = some "const \x7b b \x7d = require(\"./m\");\nexports.a = 42;\n" :=
  ⟨by decide +kernel, _, compileWith_eq_ok_iff.2
    ⟨by decide, borrowingText, rfl, by decide +kernel, rfl⟩, by decide +kernel⟩

end CompileCache.Mini
