import CompileCache.Proofs.Mini.Constants
import CompileCache.Proofs.Mini.Written

/-!
# ModuleCode — the code of a module says what the file does

* `Program.valueOf`: what a value is in the code of a file. `Program.kept`: the imports, re-exports
  and bindings of a file with these values.
* `proper_of_mem_kept`, `code_of_module`: what is kept can be read back from its lines.
* **`module_code_exact`**: the code of a module is read as what is kept if and only if no specifier
  has a double quotation mark; the statements with such a specifier become errors.
* **`read_requoted`**: a specifier in single quotation marks that has a double one.
-/

namespace CompileCache.Mini

open Text

variable {s : Source} {roots : List String} {file : String} {p : Program}

/-! ## What is kept -/

/-- What a value is in the code of a file: a name that the file does not bind gives way to the last
constant of its surroundings. -/
def Program.valueOf (s : Source) (roots : List String) (file : String) (p : Program) :
    Value → Value
  | .literal text => .literal text
  | .name name =>
    if p.Binds name then .name name
    else match lastConstant? name (p.surroundings s roots file) with
      | some text => .literal text
      | none => .name name

theorem text_valueOf (s : Source) (roots : List String) (file : String) (p : Program) (v : Value) :
    (p.valueOf s roots file v).text = p.textOf s roots file v := by
  cases v with
  | literal text => rfl
  | name name =>
    unfold Program.valueOf Program.textOf
    dsimp only
    split
    · rfl
    · cases lastConstant? name (p.surroundings s roots file) <;> rfl

/-- A statement that is kept in code, with other values. -/
def Statement.kept? (value : Value → Value) : Statement → Option Statement
  | .imports names specifier => some (.imports names specifier)
  | .exportAll specifier => some (.exportAll specifier)
  | .binding exported keyword name v => some (.binding exported keyword name (value v))
  | .reference _ | .declareModule _ _ | .declareConst _ | .crash => none

/-- The imports, re-exports and bindings of a program, in order, with the values of its code. -/
def Program.kept (s : Source) (roots : List String) (file : String) (p : Program) :
    List Statement := p.statements.filterMap (Statement.kept? (p.valueOf s roots file))

theorem proper_of_mem_statementsAt {path : String} {x : Statement} (h : x ∈ statementsAt s path) :
    x.Proper := by
  unfold statementsAt program? at h
  cases hc : s.content path with
  | none => rw [hc] at h; cases h
  | some content => rw [hc] at h; exact proper_of_mem_statements h

theorem proper_of_lastConstant? {name text : String}
    (h : lastConstant? name (p.surroundings s roots file) = some text) :
    (Value.literal text).Proper := by
  obtain ⟨x, hx, htext⟩ := List.mem_filterMap.1 (List.mem_of_getLast? h)
  obtain ⟨path, -, hpath⟩ := List.mem_flatMap.1 hx
  have hproper := proper_of_mem_statementsAt hpath
  unfold Statement.constantFor? at htext
  split at htext
  · split at htext
    · cases htext; exact hproper.2
    · cases htext
  · cases htext

theorem proper_valueOf {v : Value} (h : v.Proper) : (p.valueOf s roots file v).Proper := by
  cases v with
  | literal text => exact h
  | name name =>
    unfold Program.valueOf
    dsimp only
    split
    · exact h
    · split
      · next text htext => exact proper_of_lastConstant? htext
      · exact h

/-- **What is kept is proper.** -/
theorem proper_of_mem_kept (hp : program? s file = some p) {x : Statement}
    (h : x ∈ p.kept s roots file) : x.Proper := by
  obtain ⟨content, -, rfl⟩ := Option.map_eq_some_iff.1 hp
  obtain ⟨y, hy, hkept⟩ := List.mem_filterMap.1 h
  have hproper := proper_of_mem_statements hy
  cases y with
  | binding exported keyword name v => cases hkept; exact ⟨hproper.1, proper_valueOf hproper.2⟩
  | imports names specifier => cases hkept; exact hproper
  | exportAll specifier => cases hkept; exact hproper
  | _ => cases hkept

theorem isSome_of_mem_kept (style : Style) (value : Value → String) {x : Statement}
    (h : x ∈ p.kept s roots file) : (emitStatement style value x).isSome = true := by
  obtain ⟨y, -, hkept⟩ := List.mem_filterMap.1 h
  cases y with
  | binding exported keyword name v => cases hkept; rw [emitStatement_binding]; rfl
  | imports names specifier => cases hkept; cases hm : style.modules <;> simp [emitStatement, hm]
  | exportAll specifier => cases hkept; cases hm : style.modules <;> simp [emitStatement, hm]
  | _ => cases hkept

theorem lines_eq_kept (o : Options) (s : Source) (file : String) (p : Program) :
    p.lines o s file p.statements =
      (p.kept s o.types file).filterMap (emitStatement (Style.of o) Value.text) := by
  unfold Program.lines Program.kept
  rw [List.filterMap_filterMap]
  refine List.filterMap_congr fun x _ => ?_
  cases x with
  | binding exported keyword name v =>
    rw [emitStatement_binding, ← text_valueOf]
    exact (emitStatement_binding ..).symm
  | _ => rfl

theorem style_of_esnext {o : Options} (hm : o.module = .esnext) (ht : o.target ≠ .es5) :
    Style.of o = ⟨false, true, o.strict⟩ := by simp [Style.of, hm, ht]

theorem heading_of_modules (strict : Bool) : heading ⟨false, true, strict⟩ none = [] := by
  cases strict <;> rfl

theorem moduleLines_eq_nil_iff {strict : Bool} :
    moduleLines strict (p.kept s roots file) = [] ↔ p.kept s roots file = [] := by
  constructor
  · intro h
    rw [moduleLines, List.filterMap_eq_nil_iff] at h
    refine List.eq_nil_iff_forall_not_mem.2 fun x hx => ?_
    have hsome := isSome_of_mem_kept ⟨false, true, strict⟩ Value.text hx
    rw [h x hx] at hsome
    cases hsome
  · intro h
    rw [h]
    rfl

theorem code_of_module {view : View} {set : WorkingSet} {path : String} {out : Output}
    (h : compileWith view set path none = .ok out) (hm : set.options.module = .esnext)
    (ht : set.options.target ≠ .es5) (hd : isDeclarationFile path = false) :
    ∃ p, program? (view set.origin) path = some p ∧
      out.code = if p.kept (view set.origin) set.options.types path = [] then none
        else some (terminated (moduleLines set.options.strict
          (p.kept (view set.origin) set.options.types path))) := by
  obtain ⟨p, hp, hcode⟩ := code_of_compileWith h
  refine ⟨p, hp, hcode.trans ?_⟩
  rw [lines_eq_kept, style_of_esnext hm ht, heading_of_modules, List.nil_append, ← moduleLines]
  by_cases hk : p.kept (view set.origin) set.options.types path = []
  · rw [if_pos (.inr (moduleLines_eq_nil_iff.2 hk)), if_pos hk]
  · refine (if_neg ?_).trans (if_neg hk).symm
    rintro (hdecl | hnil)
    · rw [hd] at hdecl; cases hdecl
    · exact hk (moduleLines_eq_nil_iff.1 hnil)

/-- **Reading the code of a module.** There is no code if and only if the file has no imports,
re-exports and bindings. The code is read as these, in order, with the values that names give way
to, but those with a double quotation mark in the specifier are errors. So the program is kept if
and only if there are none of these. -/
theorem module_code_exact {view : View} {set : WorkingSet} {path : String} {out : Output}
    (h : compileWith view set path none = .ok out) (hm : set.options.module = .esnext)
    (ht : set.options.target ≠ .es5) (hd : isDeclarationFile path = false) :
    ∃ p, program? (view set.origin) path = some p ∧
      (out.code = none ↔ p.kept (view set.origin) set.options.types path = []) ∧
      ∀ code, out.code = some code →
        (Program.read code).statements =
          (p.kept (view set.origin) set.options.types path).filter (fun x => x.Quotable) ∧
        (Program.read code).errors.length =
          (p.kept (view set.origin) set.options.types path).countP (fun x => ¬x.Quotable) ∧
        ((Program.read code).errors = [] ∧
            (Program.read code).statements = p.kept (view set.origin) set.options.types path ↔
          ∀ x ∈ p.kept (view set.origin) set.options.types path, x.Quotable) := by
  obtain ⟨p, hp, hcode⟩ := code_of_module h hm ht hd
  have hproper : ∀ x ∈ p.kept (view set.origin) set.options.types path, x.Proper :=
    fun _ => proper_of_mem_kept hp
  refine ⟨p, hp, ?_, fun code hsome => ?_⟩
  · rw [hcode]
    split <;> simp_all
  · rw [hcode] at hsome
    split at hsome
    · cases hsome
    · cases hsome
      have hstatements := statements_moduleLines set.options.strict hproper
        fun _ => isSome_of_mem_kept _ _
      have herrors := errors_moduleLines set.options.strict hproper
        fun _ => isSome_of_mem_kept _ _
      refine ⟨hstatements, herrors, fun hboth x hx => ?_, fun hall => ⟨?_, ?_⟩⟩
      · rw [← hboth.2, hstatements] at hx
        exact of_decide_eq_true (List.mem_filter.1 hx).2
      · rw [← List.length_eq_zero_iff, herrors]
        exact List.countP_eq_zero.2 fun x hx => by simpa using hall x hx
      · rw [hstatements]
        exact List.filter_eq_self.2 fun x hx => decide_eq_true (hall x hx)

/-! ## Modules that are read back, and one that is not -/

/-- The text of a file with specifiers in quotation marks of either kind, and values that hold what
separates statements and names. -/
def marksText : String :=
  "import \x7b a,b \x7d from './m'\nexport * from \"./n'\"\n" ++
    "export let c='x; \x7d = \"'\nconst d = c; // e"

def moduleSet (text : String) : WorkingSet :=
  ⟨["a.ts"], .table (.ofList [("a.ts", text)]), { module := .esnext }⟩

/-- A comment behind a statement is no statement; the other lines are read back. -/
theorem module_code_exact_marks : ∃ out code,
    compileWith (Origin.source default) (moduleSet marksText) "a.ts" none = .ok out ∧
      out.code = some code ∧ (Program.read code).errors = [] ∧
      (Program.read code).statements = [.imports ["a", "b"] "./m", .exportAll "./n'",
        .binding true .variable "c" (.literal "'x; \x7d = \"'")] := by
  have h : compileWith (Origin.source default) (moduleSet marksText) "a.ts" none =
      .ok (outputOf (moduleSet marksText).options (.ofTable (.ofList [("a.ts", marksText)])) "a.ts"
        (Program.read marksText) none) :=
    compileWith_eq_ok_iff.2 ⟨by decide, marksText, rfl, by decide +kernel, rfl⟩
  obtain ⟨p, hp, hnone, hsome⟩ := module_code_exact h rfl (by decide) (by decide)
  cases hp
  have hkept : (Program.read marksText).kept (.ofTable (.ofList [("a.ts", marksText)])) [] "a.ts" =
      [.imports ["a", "b"] "./m", .exportAll "./n'",
        .binding true .variable "c" (.literal "'x; \x7d = \"'")] := by decide +kernel
  obtain ⟨code, hcode⟩ := Option.ne_none_iff_exists'.1 fun hn =>
    List.cons_ne_nil _ _ (hkept.symm.trans (hnone.1 hn))
  obtain ⟨-, -, hexact⟩ := hsome code hcode
  obtain ⟨herrors, hstatements⟩ := hexact.2 (by
    rw [show (moduleSet marksText).options.types = [] from rfl]
    exact hkept ▸ by decide)
  exact ⟨_, code, h, hcode, herrors, hstatements.trans hkept⟩

/-- **A specifier in single quotation marks that has a double one** is written between double ones:
the line is no statement when it is read back. -/
theorem read_requoted :
    (Program.read "import \x7b x \x7d from './b\"c';").statements = [.imports ["x"] "./b\"c"] ∧
    ∃ out code, compileWith (Origin.source default)
        (moduleSet "import \x7b x \x7d from './b\"c';") "a.ts" none = .ok out ∧
      out.code = some code ∧ code = "import \x7b x \x7d from \"./b\"c\";\n" ∧
      (Program.read code).statements = [] ∧ (Program.read code).errors.length = 1 :=
  ⟨by decide +kernel, _, "import \x7b x \x7d from \"./b\"c\";\n", compileWith_eq_ok_iff.2
    ⟨by decide, "import \x7b x \x7d from './b\"c';", rfl, by decide +kernel, rfl⟩,
    by decide +kernel, rfl, by decide +kernel, by decide +kernel⟩

end CompileCache.Mini
