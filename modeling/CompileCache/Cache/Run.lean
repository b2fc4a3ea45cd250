import CompileCache.Cache.Basic

/-!
# Run — what happens to a cache, step by step

* `Cache.Op`: what a caller can ask of a cache, and what others can do to the disk meanwhile.
* `Cache.Reply`: what a step answers. A lookup also tells what it handed to the validation.
* **`Cache.Site.step`**, `Cache.Site.run`: one step, and a list of steps, of a cache on a disk.
-/

namespace CompileCache.Cache

/-- What can happen to a cache. -/
inductive Op (ε : Type) where
  | save (fp : Fingerprint) (unit : Artifact)
  | get (fp : Fingerprint) (validate : Option Artifact → Except ε Validation)
  | clear
  | bind (directory : String)
  /-- A new cache, with or without a directory, takes the place of the old one. -/
  | renew (directory : Option String)
  /-- Somebody changes the disk, in whatever way. -/
  | change (disk : Disk)

/-- What a step answers. -/
inductive Reply (ε : Type) where
  | done
  /-- Whether the cache turned to the directory. -/
  | bound (changed : Bool)
  /-- What the validation was given, and what the lookup answered. -/
  | got (handed : Option Artifact) (answer : Except ε Artifact)

/-- A cache and the disk that it works on. -/
structure Site where
  cache : Cache
  disk : Disk

namespace Site

variable {ε : Type} (ofCacheError : CacheError → ε)

/-- What a lookup hands to its validation. -/
def handed (s : Site) (fp : Fingerprint) : Option Artifact := s.cache.lookup? s.disk fp

/-- The cache and the disk after storing an artifact. -/
def save (s : Site) (fp : Fingerprint) (u : Artifact) : Site :=
  let (cache, disk) := s.cache.save s.disk fp u
  ⟨cache, disk⟩

/-- **One step.** -/
def step (s : Site) : Op ε → Site × Reply ε
  | .save fp u => (s.save fp u, .done)
  | .get fp validate =>
    let (answer, cache, disk) := s.cache.get s.disk fp ofCacheError validate
    (⟨cache, disk⟩, .got (s.handed fp) answer)
  | .clear => ({ s with cache := s.cache.clear }, .done)
  | .bind directory =>
    let (changed, cache) := s.cache.bind directory
    ({ s with cache }, .bound changed)
  | .renew directory => ({ s with cache := ⟨directory, .empty⟩ }, .done)
  | .change disk => ({ s with disk }, .done)

/-- The cache and the disk after a list of steps, and what each of them answered. -/
def run (s : Site) : List (Op ε) → Site × List (Reply ε)
  | [] => (s, [])
  | op :: rest =>
    let (s₁, reply) := s.step ofCacheError op
    let (s₂, replies) := s₁.run rest
    (s₂, reply :: replies)

end Site

end CompileCache.Cache
