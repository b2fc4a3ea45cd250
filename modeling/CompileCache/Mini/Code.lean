import CompileCache.Mini.Analysis

/-!
# Code — emitting a file

* `Style`: the settings that the emitted lines depend on.
* `inlined`: a name that the file does not bind gives way to the literal that it stands for.
* `emitStatement`: the line for a statement, if it has one.
* **`emit?`**: the code of a file, in lines that each end in a line break. Files with declarations
  only, and files without emitted lines, have none.
-/

namespace CompileCache.Mini

/-- The settings that the emitted lines depend on. -/
structure Style where
  /-- Names are always bound by `var`. -/
  plainVar : Bool
  /-- Imports and exports stay as they are. -/
  modules : Bool
  strict : Bool
deriving DecidableEq

/-- The style that options choose. -/
def Style.of (o : Options) : Style := ⟨o.target = .es5, o.module = .esnext, o.strict⟩

/-- The word that binds a name. -/
def Style.word (s : Style) (k : Keyword) : String :=
  if s.plainVar then "var"
  else match k with
    | .constant => "const"
    | .variable => "let"

/-- Whether a statement binds a name. -/
def Statement.binds (name : String) : Statement → Bool
  | .binding _ _ n _ => n = name
  | _ => false

/-- The text of a value. A name that the file does not bind gives way to the literal that it stands
for. -/
def inlined (a : Scope) (l : List Statement) : Value → String
  | .literal text => text
  | .name name => if l.any (·.binds name) then name else (a.constant? name).getD name

/-- The line for a statement, if it has one. -/
def emitStatement (s : Style) (value : Value → String) : Statement → Option String
  | .imports names specifier =>
    let names := ", ".intercalate names
    if s.modules then some ("import \x7b " ++ names ++ " \x7d from \"" ++ specifier ++ "\";")
    else some (s.word .constant ++ " \x7b " ++ names ++ " \x7d = require(\"" ++ specifier ++ "\");")
  | .exportAll specifier =>
    if s.modules then some ("export * from \"" ++ specifier ++ "\";")
    else some ("__exportStar(require(\"" ++ specifier ++ "\"), exports);")
  | .binding true keyword name v =>
    if s.modules then some ("export " ++ s.word keyword ++ " " ++ name ++ " = " ++ value v ++ ";")
    else some ("exports." ++ name ++ " = " ++ value v ++ ";")
  | .binding false keyword name v =>
    some (s.word keyword ++ " " ++ name ++ " = " ++ value v ++ ";")
  | .reference _ | .declareModule _ _ | .declareConst _ | .crash => none

/-- The lines for the statements of a program. -/
def emittedLines (s : Style) (scope : Scope) (l : List Statement) : List String :=
  l.filterMap (emitStatement s (inlined scope l))

/-- The lines in front of the emitted ones: the name of the module, then the mark of strict code. -/
def heading (s : Style) (moduleName : Option String) : List String :=
  (moduleName.elim [] fun name => ["/// <amd-module name=\"" ++ name ++ "\" />"]) ++
    (if s.strict && !s.modules then ["\"use strict\";"] else [])

/-- Whether a file has declarations only. -/
def isDeclarationFile (file : String) : Bool := ".d.ts".toList.isSuffixOf file.toList

/-- Lines that each end in a line break. -/
def terminated (lines : List String) : String := String.join (lines.map (· ++ "\n"))

/-- **The code of a file.** -/
def emit? (o : Options) (file : String) (moduleName : Option String) (a : Analysis) :
    Option String :=
  let style := Style.of o
  let lines := emittedLines style a.scope a.program.statements
  if isDeclarationFile file || lines.isEmpty then none
  else some (terminated (heading style moduleName ++ lines))

end CompileCache.Mini
