import CompileCache.Cache.Basic
import CompileCache.Engine.Basic
import CompileCache.Graph
import CompileCache.Staleness
import CompileCache.Tracker.Table

/-!
# Slot — the compiler and the records of one architecture

* `Build`: a registered working set, with the slot and the registration that it belongs to.
* `Slot`: a compiler, a tracker, a graph, and which registration the compiler is loaded with.
  Registrations are numbered from one on. The numbers have no bound here, and need none: they get
  no higher than the length of a run (`Host.counters_le`).
* `Slot.new`, `Slot.register`, `Slot.activate`: loading working sets.
* `Job`: a path to emit, with the contents as they are at that moment.
* `Slot.compile`, `Slot.refresh`: what a compiler makes of a job, stamped and recorded.
* **`Slot.validate`**: what is to become of a stored artifact, and by which way.
-/

namespace CompileCache

/-- A registered working set. -/
structure Build where
  set : WorkingSet
  /-- The slot that it belongs to, by its place among all slots of the session. -/
  slot : Nat
  /-- The number of the registration in that slot. -/
  registration : Nat
deriving DecidableEq

/-- Whether a path is in the working set of a build. -/
def Build.contains (b : Build) (path : String) : Bool := b.set.files.contains path

/-- The compiler and the records of one architecture. -/
structure Slot (σ : Type) where
  arch : String
  engine : σ
  tracker : Tracker
  graph : Graph
  /-- The file of the tracker's records, if they are kept. -/
  tableFile : Option String
  /-- The registration that the compiler is loaded with. -/
  active : Nat
  /-- The last registration. -/
  issued : Nat

/-- The way by which an artifact was emitted. -/
inductive Outcome where
  /-- The cache was not asked. -/
  | uncached
  /-- Nothing was stored. -/
  | miss
  /-- The stored artifact is returned. -/
  | reuse
  /-- The stored artifact is returned with newer diagnostics. -/
  | patched
  /-- The stored artifact was stale. -/
  | recompiled
deriving DecidableEq, Inhabited

/-- An emitted artifact, and by which way it was emitted. -/
structure Emission where
  unit : Artifact
  outcome : Outcome
deriving DecidableEq

/-- A path to emit, with the contents as they are at that moment. -/
structure Job where
  view : View
  source : Source
  path : String
  version : UInt64
  moduleName : Option String
  /-- The typings to start from. -/
  roots : List String

namespace Slot

variable {σ : Type} (d : Digest) (e : Engine σ)

/-- The path of the file for the versions of an architecture. -/
def tablePath (directory arch : String) : String :=
  Path.join (Path.join directory "versions") (arch ++ ".json")

/-- A slot with a new compiler and the records that are kept in a directory. -/
def new (disk : Disk) (directory : Option String) (arch : String) : Slot σ where
  arch
  engine := e.create arch
  tracker := (directory.map fun dir => Tracker.load disk (tablePath dir arch)).getD .empty
  graph := .empty
  tableFile := directory.map (tablePath · arch)
  active := 0
  issued := 0

/-! ## Working sets -/

/-- Loads a working set under a new registration. -/
def register (s : Slot σ) (set : WorkingSet) : Slot σ :=
  { s with engine := e.load s.engine set, active := s.issued + 1, issued := s.issued + 1 }

/-- Loads the working set of a build unless it is loaded already. -/
def activate (s : Slot σ) (b : Build) : Slot σ × List Call :=
  if s.active = b.registration then (s, [])
  else
    ({ s with engine := e.load s.engine b.set, active := b.registration }, [.load s.arch b.set])

/-- Saves the records of the tracker if they changed; a failure leaves them unsaved. -/
def persist (s : Slot σ) (disk : Disk) : Slot σ × Disk :=
  match s.tableFile with
  | none => (s, disk)
  | some path =>
    if s.tracker.dirty then
      let (tracker, disk', _) := s.tracker.save disk path
      ({ s with tracker }, disk')
    else (s, disk)

/-! ## Jobs -/

/-- The slot with stamped references recorded for a path. -/
def recordReferences (s : Slot σ) (job : Job) (r : References) : Dependencies × Slot σ :=
  let (deps, tracker) := r.stamped d s.tracker job.source
  (deps, { s with tracker, graph := s.graph.record job.path deps })

/-- Compiles a job. -/
def compile (s : Slot σ) (job : Job) : Except EngineError Artifact × Slot σ :=
  let (answer, engine) := e.compile job.view s.engine job.path job.moduleName
  let s := { s with engine }
  match answer with
  | .error err => (.error err, s)
  | .ok out =>
    let (deps, s) := s.recordReferences d job out.references
    (.ok ⟨job.path, job.version, out.code, out.diagnostics, deps⟩, s)

/-- Checks a job. -/
def refresh (s : Slot σ) (job : Job) :
    Except EngineError (Diagnostics × Dependencies) × Slot σ :=
  let (answer, engine) := e.diagnose job.view s.engine job.path
  let s := { s with engine }
  match answer with
  | .error err => (.error err, s)
  | .ok report =>
    let (deps, s) := s.recordReferences d job report.references
    (.ok (report.diagnostics, deps), s)

/-- The call that compiles a job. -/
def compileCall (s : Slot σ) (job : Job) : Call := .compile s.arch job.path job.moduleName

/-- Compiles a job that takes the place of what was stored. -/
def replace (s : Slot σ) (job : Job) (outcome : Outcome) :
    Except EngineError (Outcome × Validation) × Slot σ × List Call :=
  let (answer, s') := s.compile d e job
  (answer.map fun u => (outcome, .replace u), s', [s.compileCall job])

/-- **What is to become of a stored artifact, and by which way.** -/
def validate (s : Slot σ) (job : Job) :
    Option Artifact → Except EngineError (Outcome × Validation) × Slot σ × List Call
  | none => s.replace d e job .miss
  | some u =>
    let (staleness, tracker) := classify d u.dependencies job.roots s.tracker job.source
    let s := { s with tracker }
    match staleness.decide u with
    | .reuse => (.ok (.reuse, .reuse), s, [])
    | .recompile => s.replace d e job .recompiled
    | .refreshDiagnostics =>
      let (answer, s') := s.refresh d e job
      (answer.map fun r => (.patched, .patch r.1 r.2), s', [.diagnose s.arch job.path])

end Slot

end CompileCache
