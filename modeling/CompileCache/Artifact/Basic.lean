import CompileCache.Artifact.Diagnostic
import CompileCache.KeyMap

/-!
# Artifact — the product of compiling one source text

* `Stamp`: the version and the content hash of a path when it was observed.
* `Dependencies`: the paths that a compilation looked at, stamped: referenced files, imported
  modules, and the ambient typings if there were any.
* `Artifact`: code, diagnostics and dependencies of one path.
* `Artifact.patched`: the same code with newer diagnostics and dependencies.
-/

namespace CompileCache

/-- What a path held when it was observed: a version and the hash of the content. -/
structure Stamp where
  version : UInt64
  hash : String
deriving DecidableEq, Ord, Inhabited

namespace Stamp

/-- The stamp of a path without content. -/
def missing : Stamp := ⟨0, ""⟩

end Stamp

/-- The paths that a compilation looked at, with their stamps. -/
structure Dependencies where
  /-- Files that are part of the compilation. -/
  refFiles : KeyMap Stamp
  /-- Files that were imported, directly or not. -/
  modules : KeyMap Stamp
  /-- Files with ambient declarations, or `none` if there were no such files to look at. -/
  typings : Option (KeyMap Stamp)
deriving DecidableEq

namespace Dependencies

/-- No dependency. -/
def empty : Dependencies := ⟨KeyMap.empty, KeyMap.empty, none⟩

instance : Inhabited Dependencies := ⟨empty⟩

/-- Whether ambient typings were looked at. -/
def usesTypings (d : Dependencies) : Bool := d.typings.isSome

/-- Every recorded path, the typings first, then the referenced files, then the modules. -/
def paths (d : Dependencies) : List String :=
  (d.typings.elim [] KeyMap.keys) ++ d.refFiles.keys ++ d.modules.keys

/-- Whether nothing was recorded. -/
def isEmpty (d : Dependencies) : Bool :=
  d.refFiles.isEmpty && d.modules.isEmpty && d.typings.isNone

end Dependencies

/-- The product of compiling one path. -/
structure Artifact where
  path : String
  /-- The version of the content that it was compiled from. -/
  version : UInt64
  /-- The emitted code, if there is any. -/
  code : Option String
  diagnostics : Diagnostics
  dependencies : Dependencies
deriving DecidableEq

namespace Artifact

instance : Inhabited Artifact := ⟨⟨"", 0, none, .empty, .empty⟩⟩

/-- The same code with newer diagnostics and the dependencies that these were found with. -/
def patched (u : Artifact) (diagnostics : Diagnostics) (dependencies : Dependencies) : Artifact :=
  { u with diagnostics, dependencies }

end Artifact

end CompileCache
