import CompileCache.Artifact.Basic
import CompileCache.Fingerprint

/-!
# Entry — an artifact with the fingerprint that it was stored under

* `Entry`, `Entry.isFor`: an entry is used only for the fingerprint that it was written for.
-/

namespace CompileCache

/-- A stored artifact. -/
structure Entry where
  /-- What the entry was written for: the key and all that the key stands for. -/
  fingerprint : Fingerprint
  unit : Artifact
deriving DecidableEq

/-- Whether an entry was written for a fingerprint. -/
def Entry.isFor (e : Entry) (fp : Fingerprint) : Bool := e.fingerprint = fp

end CompileCache
