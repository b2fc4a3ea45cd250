import CompileCache.Mini.Relative
import CompileCache.Mini.Scope
import CompileCache.Source.Descent

/-!
# Resolve — from specifiers to files, and what files lead to

* `program?`: the program at a path.
* `Target`, `resolve`: a relative specifier means the first file that is there, with or without an
  extension; if there is none, or the specifier is not relative, a declared module.
* `typingsClosure`: the files that the typings roots lead to by references.
* `collectModules`, `moduleClosure`: the files that some files lead to by imports and re-exports,
  collected from one file after the other.
* `exportsFrom`, **`exportsOf`**: the names that a file exports, those of re-exported files and
  modules included. A file that was visited already adds nothing.
-/

namespace CompileCache.Mini

/-- The program at a path. -/
def program? (s : Source) (path : String) : Option Program := (s.content path).map Program.read

/-- What a specifier means. -/
inductive Target where
  | file (path : String)
  /-- A declared module with the names that it exports. -/
  | declared (members : KeySet)
  | unresolved

/-- Whether a specifier is relative to the file that it stands in. -/
def isRelative (specifier : String) : Bool :=
  "./".toList.isPrefixOf specifier.toList || "../".toList.isPrefixOf specifier.toList

/-- The extensions that a relative specifier can leave out. -/
def extensions : List String := ["", ".ts", ".tsx", ".d.ts"]

/-- The paths that a relative specifier can mean, the preferred ones first. -/
def candidates (file specifier : String) : List String :=
  extensions.map (joinRelative file specifier ++ ·)

/-- The file that a specifier means. -/
def resolveFile? (s : Source) (file specifier : String) : Option String :=
  if isRelative specifier then (candidates file specifier).find? s.holds else none

/-- What a specifier in a file means. -/
def resolve (s : Source) (scope : Scope) (file specifier : String) : Target :=
  match resolveFile? s file specifier with
  | some path => .file path
  | none =>
    match scope.modules.get? specifier with
    | some members => .declared members
    | none => .unresolved

/-! ## What contents lead to -/

/-- The paths that the references of a content mean. -/
def references (file content : String) : List String :=
  (Program.read content).statements.filterMap fun
    | .reference path => some (joinRelative file path)
    | _ => none

/-- The files that the typings roots lead to by references, the roots included. -/
def typingsClosure (s : Source) (roots : List String) : KeySet := s.closure references roots

/-- The specifier of an import or a re-export. -/
def Statement.specifier? : Statement → Option String
  | .imports _ specifier | .exportAll specifier => some specifier
  | _ => none

/-- The specifier of a re-export. -/
def Statement.exportedSpecifier? : Statement → Option String
  | .exportAll specifier => some specifier
  | _ => none

/-- The files that the imports and re-exports of a content mean. -/
def importedFiles (s : Source) (file content : String) : List String :=
  ((Program.read content).statements.filterMap Statement.specifier?).filterMap (resolveFile? s file)

/-- Adds a file to the modules, and the files that it leads to by imports and re-exports. -/
def collectModules (s : Source) (modules : KeySet) (file : String) : KeySet :=
  (s.descend (importedFiles s) (fun _ _ => []) modules [file]).1.seen

/-- The files that some files lead to by imports and re-exports, these files included. -/
def moduleClosure (s : Source) (roots : List String) : KeySet :=
  roots.foldl (collectModules s) .empty

/-- The files that the re-exports of a content mean. -/
def exportedFiles (s : Source) (file content : String) : List String :=
  ((Program.read content).statements.filterMap Statement.exportedSpecifier?).filterMap
    (resolveFile? s file)

/-- The names that a statement of a file exports by itself, re-exported files left out. -/
def ownExports (s : Source) (scope : Scope) (file : String) : Statement → List String
  | .binding true _ name _ => [name]
  | .exportAll specifier =>
    match resolve s scope file specifier with
    | .declared members => members.toList
    | _ => []
  | _ => []

/-- The names that a content exports by itself, re-exported files left out. -/
def exportedNames (s : Source) (scope : Scope) (file content : String) : List String :=
  (Program.read content).statements.flatMap (ownExports s scope file)

/-- The files that are visited for the exports of a file, and the names that they export. -/
def exportsFrom (s : Source) (scope : Scope) (visited : KeySet) (file : String) : Descent :=
  (s.descend (exportedFiles s) (exportedNames s scope) visited [file]).1

/-- **The names that a file exports.** -/
def exportsOf (s : Source) (scope : Scope) (file : String) : KeySet :=
  (exportsFrom s scope .empty file).found

end CompileCache.Mini
