import CompileCache.Session.Basic

/-!
# Host — sessions and builds by name, in a world that changes

* `Host`: the world, all sessions that were ever opened, and names for sessions and builds.
* `Host.openSession`: a new session under a name. Builds of the last one keep their own.
* `Host.register`, `Host.emit`, `Host.snippet`, `Host.bind`: what sessions do, by name.
-/

namespace CompileCache

/-- Sessions and builds by name, in a world that changes. -/
structure Host (σ : Type) where
  world : World
  /-- All sessions that were ever opened. -/
  sessions : List (Session σ)
  /-- The places of the sessions in use, by name. -/
  places : KeyMap Nat
  /-- The builds by name, each with the place of its session. -/
  builds : KeyMap (Nat × Build)

namespace Host

variable {σ : Type}

/-- A host with one session in memory, under the empty name. -/
def new : Host σ := ⟨.empty, [.new .inMemory], .ofList [("", 0)], .empty⟩

instance : Inhabited (Host σ) := ⟨new⟩

/-- Opens a session under a name. -/
def openSession (h : Host σ) (name : String) (cache : Cache) : Host σ :=
  { h with
    sessions := h.sessions ++ [.new cache]
    places := h.places.insert name h.sessions.length }

/-- The session under a name, and its place. -/
def session? (h : Host σ) (name : String) : Option (Nat × Session σ) :=
  (h.places.get? name).bind fun i => (h.sessions[i]?).map (i, ·)

/-- Puts a session at a place. -/
def setSession (h : Host σ) (i : Nat) (s : Session σ) : Host σ :=
  { h with sessions := h.sessions.set i s }

/-- Changes the cache of the session at a place, and the disk. -/
def setCache (h : Host σ) (i : Nat) (s : Session σ) (r : Cache × Disk) : Host σ :=
  { h.setSession i { s with cache := r.1 } with world := { h.world with disk := r.2 } }

variable (d : Digest) (e : Engine σ)

/-- Registers a working set in a session, for a build of some name. -/
def register (h : Host σ) (i : Nat) (s : Session σ) (name : String) (paths : List String)
    (origin : Origin) (options : Options) : Except BuildError Build × Host σ × List Call :=
  match s.register e h.world.disk paths origin options with
  | (.error err, s, calls) => (.error err, h.setSession i s, calls)
  | (.ok b, s, calls) =>
    (.ok b, { h.setSession i s with builds := h.builds.insert name (i, b) }, calls)

/-- The host after a session at a place has emitted something. -/
def settled (h : Host σ) (i : Nat) (r : Session.Result σ) :
    Except BuildError Emission × Host σ × List Call :=
  (r.answer, { h.setSession i r.session with world := { h.world with disk := r.disk } }, r.calls)

/-- Emits a path of a build of the session at a place. -/
def emit (h : Host σ) (i : Nat) (b : Build) (path : String) (moduleName : Option String) :
    Except BuildError Emission × Host σ × List Call :=
  match h.sessions[i]? with
  | none => (.error (.notFound path), h, [])
  | some s => h.settled i (s.emit d e h.world b path moduleName)

/-- Emits a snippet in a session. -/
def snippet (h : Host σ) (i : Nat) (s : Session σ) (content : String)
    (path moduleName : Option String) (options : Options) :
    Except BuildError Emission × Host σ × List Call :=
  h.settled i (s.snippet d e h.world content path moduleName options)

/-- Turns a session to another cache directory. -/
def bind (h : Host σ) (i : Nat) (s : Session σ) (directory : String) : Bool × Host σ :=
  let (changed, s) := s.bind directory
  (changed, h.setSession i s)

end Host

end CompileCache
