import CompileCache.Disk.Files
import CompileCache.Error

/-!
# Cache — artifacts by fingerprint, in memory and as files

* `Cache`: the entries in memory, and the directory of the entry files if there is one.
* `Cache.fetch`: brings the entry of a fingerprint into memory if its file is in order.
* `Cache.held?`: the artifact in memory; `Cache.lookup?`: that of a fetched cache.
* `Validation`, `Cache.settle`: what becomes of the artifact that was found.
* **`Cache.get`**: a lookup that lets a validation decide.
* `Cache.save`, `Cache.contains`, `Cache.clear`, `Cache.bind`.
-/

namespace CompileCache

/-- Artifacts by fingerprint. -/
structure Cache where
  /-- Where the entry files are; without it there are none. -/
  directory : Option String
  /-- The entries in memory, by key. -/
  memory : KeyMap Entry

/-- What becomes of the artifact that a lookup found. -/
inductive Validation where
  /-- It is returned as it is. -/
  | reuse
  /-- It is returned and stored with newer diagnostics and dependencies. -/
  | patch (diagnostics : Diagnostics) (dependencies : Dependencies)
  /-- Another one is returned and stored in its stead. -/
  | replace (unit : Artifact)
deriving DecidableEq

namespace Cache

/-- A cache without files. -/
def inMemory : Cache := ⟨none, .empty⟩

/-- A cache with files in a directory. -/
def onDisk (directory : String) : Cache := ⟨some directory, .empty⟩

instance : Inhabited Cache := ⟨inMemory⟩

/-- The path of the entry file of a key. -/
def entryPath (directory key : String) : String :=
  Path.join (Path.join directory "entries") (key ++ ".rkyv")

/-- The path of the entry file of a key, if there are files. -/
def entryPath? (c : Cache) (key : String) : Option String := c.directory.map (entryPath · key)

/-! ## Lookup -/

/-- The entry in the file of a fingerprint; one that was written for another does not count. -/
def load? (c : Cache) (d : Disk) (fp : Fingerprint) : Option Entry :=
  match c.entryPath? fp.key with
  | none => none
  | some path =>
    match d.read path with
    | .ok (.entry e) => if e.isFor fp then some e else none
    | _ => none

/-- The cache with the entry of a fingerprint in memory, if there is one. -/
def fetch (c : Cache) (d : Disk) (fp : Fingerprint) : Cache :=
  if c.memory.contains fp.key then c
  else match c.load? d fp with
    | none => c
    | some e => { c with memory := c.memory.insert fp.key e }

/-- The artifact in memory for a fingerprint. -/
def held? (c : Cache) (fp : Fingerprint) : Option Artifact := (c.memory.get? fp.key).map (·.unit)

/-- The artifact that a lookup finds for a fingerprint. -/
def lookup? (c : Cache) (d : Disk) (fp : Fingerprint) : Option Artifact := (c.fetch d fp).held? fp

/-- Whether there is an entry for a fingerprint in memory, or a file of its name. -/
def contains (c : Cache) (d : Disk) (fp : Fingerprint) : Bool :=
  c.memory.contains fp.key || (c.entryPath? fp.key).any d.isFile

/-! ## Storing -/

/-- Writes an entry file if there are files; a failure leaves the entry unwritten. -/
def writeEntry (c : Cache) (d : Disk) (e : Entry) : Disk :=
  match c.entryPath? e.fingerprint.key with
  | none => d
  | some path => (d.writeUnder path (.entry e)).1

/-- Stores an artifact, in memory and as a file. -/
def save (c : Cache) (d : Disk) (fp : Fingerprint) (u : Artifact) : Cache × Disk :=
  ({ c with memory := c.memory.insert fp.key ⟨fp, u⟩ }, c.writeEntry d ⟨fp, u⟩)

/-- Does what a validation says with the artifact in memory. -/
def settle (c : Cache) (d : Disk) (fp : Fingerprint) :
    Validation → Except CacheError Artifact × Cache × Disk
  | .reuse =>
    match c.held? fp with
    | none => (.error .reuseOnMiss, c, d)
    | some u => (.ok u, c, d)
  | .patch diagnostics dependencies =>
    match c.held? fp with
    | none => (.error .patchOnMiss, c, d)
    | some u =>
      let patched := u.patched diagnostics dependencies
      (.ok patched, c.save d fp patched)
  | .replace u => (.ok u, c.save d fp u)

/-- **Looks up a fingerprint and lets `validate` decide on what was found.** A failure of the
validation is passed on and changes nothing, save that the entry is in memory. -/
def get {ε : Type} (c : Cache) (d : Disk) (fp : Fingerprint) (ofCacheError : CacheError → ε)
    (validate : Option Artifact → Except ε Validation) : Except ε Artifact × Cache × Disk :=
  let c := c.fetch d fp
  match validate (c.held? fp) with
  | .error e => (.error e, c, d)
  | .ok v =>
    let (r, c', d') := c.settle d fp v
    (r.mapError ofCacheError, c', d')

/-- Drops all entries in memory; files stay. -/
def clear (c : Cache) : Cache := { c with memory := .empty }

/-- Turns to another directory, which leaves no entry in memory. Nothing happens, and the answer is
`false`, if the directory is bound already. -/
def bind (c : Cache) (directory : String) : Bool × Cache :=
  if c.directory.any (Path.same · directory) then (false, c) else (true, onDisk directory)

/-- How many entries are in memory. -/
def size (c : Cache) : Nat := c.memory.size

@[simp] theorem held?_save_self (c : Cache) (d : Disk) (fp : Fingerprint) (u : Artifact) :
    (c.save d fp u).1.held? fp = some u := by simp [save, held?]

theorem held?_save_of_ne (c : Cache) (d : Disk) {fp fp' : Fingerprint} (u : Artifact)
    (h : fp'.key ≠ fp.key) : (c.save d fp u).1.held? fp' = c.held? fp' := by
  simp [save, held?, KeyMap.get?_insert, h]

end Cache

end CompileCache
