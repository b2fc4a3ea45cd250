import CompileCache.Session.Emit

/-!
# Session — compilers by architecture, and the cache that they share

* `Session`: the cache, all slots that were ever made, and which of them an architecture has now.
* `workingFiles`: the paths of a working set: those that are not excluded, in ascending order.
* **`Session.register`**: registers a working set.
* **`Session.emit`**: emits a path of a build of the session.
* `Session.snippet`: registers a text as the only file of a build, and emits it.
* `Session.bind`: turns to another cache directory. Slots are retired, but not for older builds.
-/

namespace CompileCache

/-- Compilers by architecture, and the cache that they share. -/
structure Session (σ : Type) where
  cache : Cache
  /-- All slots that were ever made; builds refer to them by their places. -/
  slots : List (Slot σ)
  /-- The places of the slots in use, by architecture. -/
  places : KeyMap Nat

/-- The paths of a working set: those that no pattern excludes, in ascending order, each once. -/
def workingFiles (globs : Option (List (List Glob.Token))) (paths : List String) : List String :=
  (KeySet.ofList (paths.filter fun p => !Options.matchesAny globs p)).toList

namespace Session

variable {σ : Type}

/-- A session that has done nothing. -/
def new (cache : Cache) : Session σ := ⟨cache, [], .empty⟩

instance : Inhabited (Session σ) := ⟨new .inMemory⟩

/-- The architectures that have a compiler, in ascending order. -/
def architectures (s : Session σ) : List String := s.places.keys

/-- The place of the slot in use for an architecture, and the slot. -/
def placed? (s : Session σ) (arch : String) : Option (Nat × Slot σ) :=
  (s.places.get? arch).bind fun i => (s.slots[i]?).map (i, ·)

/-- The slot in use for an architecture. -/
def slot? (s : Session σ) (arch : String) : Option (Slot σ) := (s.placed? arch).map (·.2)

variable (d : Digest) (e : Engine σ)

/-- Makes a slot for an architecture, behind all others. -/
def addSlot (s : Session σ) (disk : Disk) (arch : String) :
    Nat × Slot σ × Session σ × List Call :=
  let slot := Slot.new e disk s.cache.directory arch
  let i := s.slots.length
  (i, slot, { s with slots := s.slots ++ [slot], places := s.places.insert arch i },
    [.create arch])

/-- The place and the slot for an architecture, which is made if there is none in use. -/
def slotFor (s : Session σ) (disk : Disk) (arch : String) :
    Nat × Slot σ × Session σ × List Call :=
  match s.placed? arch with
  | some (i, slot) => (i, slot, s, [])
  | none => s.addSlot e disk arch

/-- Registers checked options with the paths that are not excluded. -/
def registerFiles (s : Session σ) (disk : Disk) (set : WorkingSet) :
    Build × Session σ × List Call :=
  let (i, slot, s, creates) := s.slotFor e disk set.options.arch
  let slot := slot.register e set
  (⟨set, i, slot.issued⟩, { s with slots := s.slots.set i slot },
    creates ++ [.load slot.arch set])

/-- **Registers a working set.** Options that are refused change nothing. -/
def register (s : Session σ) (disk : Disk) (paths : List String) (origin : Origin)
    (options : Options) : Except BuildError Build × Session σ × List Call :=
  match options.validate with
  | .error err => (.error (.config err), s, [])
  | .ok () =>
    match options.excludeGlobs with
    | .error err => (.error (.config err), s, [])
    | .ok globs =>
      let (b, s, calls) := s.registerFiles e disk ⟨workingFiles globs paths, origin, options⟩
      (.ok b, s, calls)

/-- What an emit answers, what it leaves, and which calls it made. -/
structure Result (σ : Type) where
  answer : Except BuildError Emission
  session : Session σ
  disk : Disk
  calls : List Call

/-- **Emits a path of a build.** -/
def emit (s : Session σ) (w : World) (b : Build) (path : String) (moduleName : Option String) :
    Result σ :=
  match s.slots[b.slot]? with
  | none => ⟨.error (.notFound path), s, w.disk, []⟩
  | some slot =>
    let r := Desk.emit d e ⟨slot, s.cache, w.disk⟩ (Origin.source w) b path moduleName
    ⟨r.answer, { s with slots := s.slots.set b.slot r.desk.slot, cache := r.desk.cache },
      r.desk.disk, r.calls⟩

/-- The path of a snippet: the given one, or one that is made from the content. -/
def pathOfSnippet (content : String) (path : Option String) (options : Options) : String :=
  path.getD (snippetPath d content options)

/-- **Registers a text as the only file of a build, and emits it.** -/
def snippet (s : Session σ) (w : World) (content : String) (path moduleName : Option String)
    (options : Options) : Result σ :=
  let path := pathOfSnippet d content path options
  match s.register e w.disk [path] (.table (.ofList [(path, content)])) options with
  | (.error err, s, calls) => ⟨.error err, s, w.disk, calls⟩
  | (.ok b, s, calls) =>
    let r := s.emit d e w b path moduleName
    { r with calls := calls ++ r.calls }

/-- Turns to another cache directory; the answer is `false` if it is bound already. -/
def bind (s : Session σ) (directory : String) : Bool × Session σ :=
  match s.cache.bind directory with
  | (false, _) => (false, s)
  | (true, cache) => (true, { s with cache, places := .empty })

end Session

end CompileCache
