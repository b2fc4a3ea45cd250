import CompileCache.Session.Host

/-!
# Run — what happens to a host, step by step

* `Step`: what a caller can ask for, and what others can do to contents and files meanwhile.
* `Answer`: what a step answers.
* **`Host.step`**, `Host.run`: one step, and a list of steps. Each step answers together with the
  calls to compilers that it made.
* `Reachable`: the hosts that runs lead to.
-/

namespace CompileCache

/-- What can happen to a host. -/
inductive Step where
  /-- The content of a path in the table of the world changes. -/
  | edit (path : String) (content : Option String)
  /-- Somebody changes the disk, in whatever way. -/
  | change (disk : Disk)
  /-- A session is opened under a name, in memory or with a cache directory. -/
  | openSession (name : String) (directory : Option String)
  | register (session build : String) (paths : List String) (origin : Origin) (options : Options)
  | emit (build path : String) (moduleName : Option String)
  | snippet (session content : String) (path moduleName : Option String) (options : Options)
  /-- A session turns to another cache directory. -/
  | bind (session directory : String)
  /-- A session forgets the entries in memory. -/
  | clear (session : String)
  /-- An artifact is stored in the cache of a session. -/
  | save (session : String) (fp : Fingerprint) (unit : Artifact)
  /-- The cache of a session is asked for an artifact as it is. -/
  | peek (session : String) (fp : Fingerprint)

/-- What a step answers. -/
inductive Answer where
  | done
  /-- Whether the session turned to the directory. -/
  | bound (changed : Bool)
  | registered (r : Except BuildError Build)
  | emitted (r : Except BuildError Emission)
  | peeked (r : Except CacheError Artifact)
  | noSession
  | noBuild

namespace Host

variable {σ : Type} (d : Digest) (e : Engine σ)

/-- A step in a session, or the answer that there is none. -/
def within (h : Host σ) (name : String) (f : Nat → Session σ → Host σ × Answer × List Call) :
    Host σ × Answer × List Call :=
  match h.session? name with
  | none => (h, .noSession, [])
  | some (i, s) => f i s

/-- **One step.** -/
def step (h : Host σ) : Step → Host σ × Answer × List Call
  | .edit path content => ({ h with world := h.world.edit path content }, .done, [])
  | .change disk => ({ h with world := { h.world with disk } }, .done, [])
  | .openSession name directory =>
    (h.openSession name ((directory.map Cache.onDisk).getD .inMemory), .done, [])
  | .register session build paths origin options =>
    h.within session fun i s =>
      let (r, h', calls) := h.register e i s build paths origin options
      (h', .registered r, calls)
  | .emit build path moduleName =>
    match h.builds.get? build with
    | none => (h, .noBuild, [])
    | some (i, b) =>
      let (r, h', calls) := h.emit d e i b path moduleName
      (h', .emitted r, calls)
  | .snippet session content path moduleName options =>
    h.within session fun i s =>
      let (r, h', calls) := h.snippet d e i s content path moduleName options
      (h', .emitted r, calls)
  | .bind session directory =>
    h.within session fun i s =>
      let (changed, h') := h.bind i s directory
      (h', .bound changed, [])
  | .clear session =>
    h.within session fun i s => (h.setCache i s (s.cache.clear, h.world.disk), .done, [])
  | .save session fp unit =>
    h.within session fun i s => (h.setCache i s (s.cache.save h.world.disk fp unit), .done, [])
  | .peek session fp =>
    h.within session fun i s =>
      let (r, after) := s.cache.get h.world.disk fp id fun _ => .ok .reuse
      (h.setCache i s after, .peeked r, [])

/-- The host after a list of steps, and what each of them answered. -/
def run (h : Host σ) : List Step → Host σ × List (Answer × List Call)
  | [] => (h, [])
  | s :: rest =>
    let (h₁, answer, calls) := h.step d e s
    let (h₂, answers) := h₁.run rest
    (h₂, (answer, calls) :: answers)

/-- The hosts that runs lead to. -/
inductive Reachable : Host σ → Prop
  | new : Reachable .new
  | step {h : Host σ} (s : Step) : Reachable h → Reachable (h.step d e s).1

variable {d e}

theorem Reachable.run {h : Host σ} (hr : Reachable d e h) (l : List Step) :
    Reachable d e (h.run d e l).1 := by
  induction l generalizing h with
  | nil => exact hr
  | cons s l ih => exact ih (hr.step s)

end Host

end CompileCache
