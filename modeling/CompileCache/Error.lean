import CompileCache.Options.Check

/-!
# Error — why an operation fails

* `EngineError`: what a compiler refuses.
* `CacheError`: what keeps an entry from being used or stored.
* `BuildError`: what a build or an emit answers when it fails. `BuildError.ofConfig`: that settings
  are refused, as such an answer.
* `message` of each: the wording.
-/

namespace CompileCache

/-- What a compiler refuses. -/
inductive EngineError where
  /-- The compiler gave up on a path. -/
  | failed (path reason : String)
  /-- The path is not in the working set. -/
  | unknownFile (path : String)
deriving DecidableEq

/-- The wording of a refusal by a compiler. -/
def EngineError.message : EngineError → String
  | .failed path reason => "Failed to compile " ++ path ++ ": " ++ reason
  | .unknownFile path => "Unknown file: " ++ path

/-- What keeps an entry from being used or stored. -/
inductive CacheError where
  | corrupted (reason : String)
  /-- The entry was written for another key. -/
  | keyMismatch (expected found : String)
  /-- A validation asks for what a lookup cannot give. -/
  | protocol (reason : String)
  | io (reason : String)
  | serialization (reason : String)
deriving DecidableEq

namespace CacheError

/-- The wording of a cache error. -/
def message : CacheError → String
  | .corrupted reason => "Corrupted cache entry: " ++ reason
  | .keyMismatch expected found =>
    "Cache key mismatch: expected " ++ expected ++ ", found " ++ found
  | .protocol reason => "Invalid validation result: " ++ reason
  | .io reason => "I/O error: " ++ reason
  | .serialization reason => "Serialization error: " ++ reason

/-- Reuse was asked for where nothing is stored. -/
def reuseOnMiss : CacheError := .protocol "cannot reuse on a cache miss"

/-- A patch was asked for where nothing is stored. -/
def patchOnMiss : CacheError := .protocol "cannot patch on a cache miss"

end CacheError

/-- What a build or an emit answers when it fails. -/
inductive BuildError where
  /-- The path is not in the working set, or has no content. -/
  | notFound (path : String)
  | config (e : ConfigError)
  | engine (e : EngineError)
  | cache (e : CacheError)
  | io (reason : String)
  | internal (reason : String)

/-- What refused settings are to a build. That there is no schema is no fault of the settings. -/
def BuildError.ofConfig : ConfigError → BuildError
  | .noSchema reason => .internal reason
  | e => .config e

/-- The wording of a failure. -/
def BuildError.message : BuildError → String
  | .notFound path => "File not found: " ++ path
  | .config e => "Configuration error: " ++ e.message
  | .engine e => "Engine error: " ++ e.message
  | .cache e => "Cache error: " ++ e.message
  | .io reason => "I/O error: " ++ reason
  | .internal reason => "Internal error: " ++ reason

end CompileCache
