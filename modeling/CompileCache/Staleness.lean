import CompileCache.Tracker.Basic

/-!
# Staleness — how much of a stored artifact still holds

* `stalePaths`: the recorded paths with another content now; all of them are observed.
* `typingsChanged`: whether the ambient typings in effect are others than the recorded ones.
* `Staleness`, **`classify`**: the gravest change of what an artifact depends on. Typings come
  before files, and files before modules; what comes after the first change is not observed.
* `Action`, `decide`: what is to be done with a stored artifact.
-/

namespace CompileCache

/-- How much of a stored artifact is invalid, from least to most. -/
inductive Staleness where
  /-- Nothing that it depends on changed. -/
  | fresh
  /-- An imported module changed: diagnostics can differ. -/
  | modules
  /-- A referenced file changed: code can differ. -/
  | files
  /-- The ambient typings changed: everything can differ. -/
  | typings
deriving DecidableEq, Inhabited

/-- What is to be done with a stored artifact. -/
inductive Action where
  | reuse
  | refreshDiagnostics
  | recompile
deriving DecidableEq, Inhabited

/-- What is to be done with a stored artifact of some staleness. One that reports an import without
a target is refreshed also if nothing changed, as the target may be there now. -/
def Staleness.decide (u : Artifact) : Staleness → Action
  | .typings | .files => .recompile
  | .modules => .refreshDiagnostics
  | .fresh => if u.diagnostics.hasUnresolved then .refreshDiagnostics else .reuse

variable (d : Digest)

/-- The recorded paths with another content now. -/
def stalePaths (recorded : KeyMap Stamp) (t : Tracker) (s : Source) : List String × Tracker :=
  let (now, t') := t.observeEach d s recorded.keys
  let changed := (recorded.entries.zip now).filter fun e => e.1.2.hash != e.2.2.hash
  (changed.map (·.1.1), t')

/-- Whether the ambient typings in effect are others than the recorded ones. -/
def typingsChanged (recorded : Option (KeyMap Stamp)) (roots : List String) (t : Tracker)
    (s : Source) : Bool × Tracker :=
  match recorded with
  | none => (!roots.isEmpty, t)
  | some files =>
    if roots.any fun root => !files.contains root then (true, t)
    else
      let (stale, t') := stalePaths d files t s
      (!stale.isEmpty, t')

/-- **The gravest change of what an artifact depends on.** -/
def classify (deps : Dependencies) (roots : List String) (t : Tracker) (s : Source) :
    Staleness × Tracker :=
  match typingsChanged d deps.typings roots t s with
  | (true, t₁) => (.typings, t₁)
  | (false, t₁) =>
    match stalePaths d deps.refFiles t₁ s with
    | (_ :: _, t₂) => (.files, t₂)
    | ([], t₂) =>
      match stalePaths d deps.modules t₂ s with
      | (_ :: _, t₃) => (.modules, t₃)
      | ([], t₃) => (.fresh, t₃)

end CompileCache
