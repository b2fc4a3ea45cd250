import CompileCache.Engine.Basic
import CompileCache.Mini.Resolve

/-!
# Analysis — checking a file

* `typingsScope`, `referenceScope`, `fileScope`: the scope after the ambient typings, after the
  referenced files too, and after the file's own declarations.
* `checkReferences`, `checkItem`: the errors for references, and for one statement.
* `Analysis`, **`analyze`**: the program of a file, its scope, diagnostics and references.
-/

namespace CompileCache.Mini

/-- An error at a statement. -/
def errorAt (at_ : Located) (code : UInt32) (message : String) : Diagnostic :=
  (Diagnostic.error code message at_.span).withLoc at_.loc

/-- A referenced file has no content. -/
def fileNotFound (at_ : Located) (path : String) : Diagnostic :=
  errorAt at_ 6053 ("File '" ++ path ++ "' not found.")

/-- A module has no such member. -/
def noExportedMember (at_ : Located) (specifier name : String) : Diagnostic :=
  errorAt at_ 2305 ("Module '" ++ specifier ++ "' has no exported member '" ++ name ++ "'.")

/-- A specifier means nothing. -/
def cannotFindModule (at_ : Located) (specifier : String) : Diagnostic :=
  (errorAt at_ 2307 ("Cannot find module '" ++ specifier ++
    "' or its corresponding type declarations.")).markUnresolved

/-- A name means nothing. -/
def cannotFindName (at_ : Located) (name : String) : Diagnostic :=
  errorAt at_ 2304 ("Cannot find name '" ++ name ++ "'.")

/-! ## Scopes -/

/-- A scope with what the file at a path declares, if it has content. -/
def Scope.absorbFile (s : Source) (scope : Scope) (path : String) : Scope :=
  match program? s path with
  | some p => scope.absorb p
  | none => scope

/-- The files with ambient declarations; none are looked for without roots. -/
def typings? (s : Source) (roots : List String) : Option KeySet :=
  if roots.isEmpty then none else some (typingsClosure s roots)

/-- The scope after the ambient typings, in ascending order of their paths. -/
def typingsScope (s : Source) (roots : List String) : Scope :=
  (((typings? s roots).map KeySet.toList).getD []).foldl (Scope.absorbFile s) .empty

/-- The paths that the references of a program mean, each with its statement. -/
def Program.references (file : String) (p : Program) : List (Located × String) :=
  p.items.filterMap fun i => match i.statement with
    | .reference path => some (i, joinRelative file path)
    | _ => none

/-- The scope after the ambient typings and the referenced files, in the order of the statements. -/
def referenceScope (s : Source) (roots : List String) (file : String) (p : Program) : Scope :=
  ((p.references file).map (·.2)).foldl (Scope.absorbFile s) (typingsScope s roots)

/-- The scope of a file: its own declarations come last. -/
def fileScope (s : Source) (roots : List String) (file : String) (p : Program) : Scope :=
  (referenceScope s roots file p).absorb p

/-- The names that a statement takes from a module. -/
def Statement.importedNames : Statement → List String
  | .imports names _ => names
  | _ => []

/-- Whether a name means anything in a file. -/
def isKnown (scope : Scope) (p : Program) (name : String) : Bool :=
  scope.globals.contains name || p.statements.any fun s => s.importedNames.contains name

/-! ## Checks -/

/-- The errors for references without content. -/
def checkReferences (s : Source) (file : String) (p : Program) : List Diagnostic :=
  (p.references file).filterMap fun r => if s.holds r.2 then none else some (fileNotFound r.1 r.2)

/-- The errors for names that a module does not export. -/
def missingMembers (at_ : Located) (specifier : String) (exports : KeySet) (names : List String) :
    List Diagnostic :=
  (names.filter fun n => !decide (n ∈ exports)).map (noExportedMember at_ specifier)

/-- The errors for one statement. -/
def checkItem (s : Source) (scope : Scope) (file : String) (p : Program) (i : Located) :
    List Diagnostic :=
  match i.statement with
  | .imports names specifier =>
    match resolve s scope file specifier with
    | .file path => missingMembers i specifier (exportsOf s scope path) names
    | .declared members => missingMembers i specifier members names
    | .unresolved => [cannotFindModule i specifier]
  | .exportAll specifier =>
    match resolve s scope file specifier with
    | .unresolved => [cannotFindModule i specifier]
    | _ => []
  | .binding _ _ _ (.name name) => if isKnown scope p name then [] else [cannotFindName i name]
  | _ => []

/-- The files that the imports and re-exports of a program mean. -/
def Program.importedFiles (s : Source) (file : String) (p : Program) : List String :=
  (p.statements.filterMap Statement.specifier?).filterMap (resolveFile? s file)

/-- What checking a file finds. -/
structure Analysis where
  program : Program
  scope : Scope
  report : Report

/-- The semantic errors of a program. -/
def semantic (s : Source) (scope : Scope) (file : String) (p : Program) : List Diagnostic :=
  checkReferences s file p ++ p.items.flatMap (checkItem s scope file p)

/-- The paths that are looked at for a program. -/
def referencesOf (s : Source) (roots : List String) (file : String) (p : Program) : References where
  refFiles := .ofList ((p.references file).map (·.2))
  modules := KeyMap.erase (moduleClosure s (p.importedFiles s file)) file
  typings := typings? s roots

/-- Checks the program of a file. -/
def analyzeProgram (s : Source) (roots : List String) (file : String) (p : Program) : Analysis :=
  let scope := fileScope s roots file p
  ⟨p, scope, ⟨⟨p.errors, semantic s scope file p⟩, referencesOf s roots file p⟩⟩

/-- **Checks a file of a working set.** -/
def analyze (set : WorkingSet) (s : Source) (file : String) : Except EngineError Analysis :=
  if set.files.contains file = false then .error (.unknownFile file)
  else match program? s file with
    | none => .error (.failed file "source content is unavailable")
    | some p =>
      if p.statements.contains .crash then .error (.failed file "internal compiler failure")
      else .ok (analyzeProgram s set.options.types file p)

end CompileCache.Mini
