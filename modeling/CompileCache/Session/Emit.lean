import CompileCache.Session.Slot

/-!
# Emit — from a path of a build to an artifact

* `Desk`: the slot, the cache and the disk that an emit works on.
* `Desk.uncached`, `Desk.cached`: emitting without and with a look into the cache.
* `Desk.finish`: the artifact gets the version of its content in this slot, and the versions are
  saved.
* **`Desk.emit`**: emits a path of a build. A path that is not in the build or has no content
  changes nothing.
-/

namespace CompileCache

/-- The slot, the cache and the disk that an emit works on. -/
structure Desk (σ : Type) where
  slot : Slot σ
  cache : Cache
  disk : Disk

/-- What an emit answers, what it leaves, and which calls it made. -/
structure Desk.Result (σ : Type) where
  answer : Except BuildError Emission
  desk : Desk σ
  calls : List Call

namespace Desk

variable {σ : Type} (d : Digest) (e : Engine σ)

/-- Emits a job and stores the artifact without looking for one. -/
def uncached (k : Desk σ) (job : Job) (fp : Fingerprint) : Result σ :=
  let calls := [k.slot.compileCall job]
  match k.slot.compile d e job with
  | (.error err, slot) => ⟨.error (.engine err), { k with slot }, calls⟩
  | (.ok unit, slot) =>
    let (cache, disk) := k.cache.save k.disk fp unit
    ⟨.ok ⟨unit, .uncached⟩, ⟨slot, cache, disk⟩, calls⟩

/-- Emits a job with as little work as what is stored allows. -/
def cached (k : Desk σ) (job : Job) (fp : Fingerprint) : Result σ :=
  let cache := k.cache.fetch k.disk fp
  match k.slot.validate d e job (cache.held? fp) with
  | (.error err, slot, calls) => ⟨.error (.engine err), ⟨slot, cache, k.disk⟩, calls⟩
  | (.ok (outcome, v), slot, calls) =>
    match cache.settle k.disk fp v with
    | (.error err, cache, disk) => ⟨.error (.cache err), ⟨slot, cache, disk⟩, calls⟩
    | (.ok unit, cache, disk) => ⟨.ok ⟨unit, outcome⟩, ⟨slot, cache, disk⟩, calls⟩

/-- Gives the emitted artifact its version in this slot, and saves the versions. -/
def finish (version : UInt64) (r : Result σ) : Result σ :=
  match r.answer with
  | .error _ => r
  | .ok em =>
    let (slot, disk) := r.desk.slot.persist r.desk.disk
    { r with
      answer := .ok { em with unit := { em.unit with version } }
      desk := { r.desk with slot, disk } }

/-- Emits a path of a build that has this content. -/
def emitContent (k : Desk σ) (view : View) (b : Build) (path content : String)
    (moduleName : Option String) : Result σ :=
  let options := b.set.options
  let fp := Fingerprint.of d content options.emit moduleName
  let (slot, loads) := k.slot.activate e b
  let (version, tracker) := slot.tracker.version d path content
  let k := { k with slot := { slot with tracker } }
  let job : Job := ⟨view, view b.set.origin, path, version, moduleName, options.types⟩
  let r := if options.useCache then k.cached d e job fp else k.uncached d e job fp
  let r := finish version r
  { r with calls := loads ++ r.calls }

/-- **Emits a path of a build.** -/
def emit (k : Desk σ) (view : View) (b : Build) (path : String) (moduleName : Option String) :
    Result σ :=
  if b.contains path = false then ⟨.error (.notFound path), k, []⟩
  else match (view b.set.origin).content path with
    | none => ⟨.error (.notFound path), k, []⟩
    | some content => k.emitContent d e view b path content moduleName

end Desk

end CompileCache
