import CompileCache.Cache.Run
import CompileCache.Proofs.Cache.Store

/-!
# Steps — what the steps of a cache do

* `Cache.verdict`: what a lookup answers and what it stores, told by what it found.
* **`Cache.get_eq`**, `Cache.Site.step_get`: a lookup gives this verdict on the artifact that was
  found, and fetches the entry whatever the verdict is.
* `Cache.any_same_iff`: which directories are bound already.
* `Cache.Site.stores?`: what a step stores.
* `Cache.Distinct`: fingerprints that are told apart by their keys; `Cache.printOf`,
  `Cache.artifactAt`: fingerprints and artifacts for short runs.
-/

namespace CompileCache.Cache

variable {ε : Type}

/-- What a lookup answers, and what it stores, by what it found. -/
def verdict (ofCacheError : CacheError → ε) (validate : Option Artifact → Except ε Validation)
    (found : Option Artifact) : Except ε Artifact × Option Artifact :=
  match validate found, found with
  | .error err, _ => (.error err, none)
  | .ok .reuse, some u => (.ok u, none)
  | .ok .reuse, none => (.error (ofCacheError .reuseOnMiss), none)
  | .ok (.patch diagnostics dependencies), some u =>
    let patched : Artifact := ⟨u.path, u.version, u.code, diagnostics, dependencies⟩
    (.ok patched, some patched)
  | .ok (.patch _ _), none => (.error (ofCacheError .patchOnMiss), none)
  | .ok (.replace u), _ => (.ok u, some u)

variable {f : CacheError → ε} {validate : Option Artifact → Except ε Validation}

/-- **A lookup gives its verdict on what was found.** -/
theorem get_eq (c : Cache) (d : Disk) (fp : Fingerprint) :
    c.get d fp f validate = ((verdict f validate (c.lookup? d fp)).1,
      match (verdict f validate (c.lookup? d fp)).2 with
      | none => (c.fetch d fp, d)
      | some u => (c.fetch d fp).save d fp u) := by
  unfold get lookup?
  generalize c.fetch d fp = c'
  dsimp only
  unfold verdict settle
  cases hv : validate (c'.held? fp) with
  | error err => rfl
  | ok v =>
    cases v with
    | reuse => cases c'.held? fp <;> rfl
    | patch diagnostics dependencies => cases c'.held? fp <;> rfl
    | replace u => rfl

theorem any_same_iff {bound : Option String} {directory : String} :
    bound.any (Path.same · directory) = true ↔
      bound.map Path.components = some (Path.components directory) := by
  cases bound with
  | none => simp
  | some dir => rw [Option.any_some, Option.map_some, Path.same_iff, Option.some_inj]

namespace Site

variable {s : Site} {fp fp' : Fingerprint} {u : Artifact}

/-- The cache and the disk after the entry of a fingerprint was brought into memory. -/
def fetch (s : Site) (fp : Fingerprint) : Site := { s with cache := s.cache.fetch s.disk fp }

/-- What a step stores, and under which fingerprint. -/
def stores? (f : CacheError → ε) (s : Site) : Op ε → Option (Fingerprint × Artifact)
  | .save fp u => some (fp, u)
  | .get fp validate => (verdict f validate (s.handed fp)).2.map (fp, ·)
  | .clear | .bind _ | .renew _ | .change _ => none

theorem stores?_get (s : Site) (fp : Fingerprint) :
    s.stores? f (.get fp validate) = (verdict f validate (s.handed fp)).2.map (fp, ·) := rfl

theorem step_get (s : Site) (fp : Fingerprint) :
    s.step f (.get fp validate) =
      (match (verdict f validate (s.handed fp)).2 with
        | none => s.fetch fp
        | some u => (s.fetch fp).save fp u,
        .got (s.handed fp) (verdict f validate (s.handed fp)).1) := by
  dsimp only [step]
  rw [get_eq]
  unfold handed
  cases (verdict f validate (s.cache.lookup? s.disk fp)).2 <;> rfl

end Site

/-! ## Fingerprints -/

/-- Fingerprints are told apart by their keys. -/
def Distinct (F : Fingerprint → Prop) : Prop :=
  ∀ {fp fp'}, F fp → F fp' → fp'.key = fp.key → fp' = fp

/-- A fingerprint that has a text for its content, under a key that can be read. -/
def printOf (text : String) : Fingerprint := ⟨"key-" ++ text, text, "{}", none⟩

/-- An artifact that has no more than a path. -/
def artifactAt (path : String) : Artifact := ⟨path, 0, none, .empty, .empty⟩

/-- Two fingerprints of texts. -/
def fewPrints : List Fingerprint := [printOf "x", printOf "y"]

theorem distinct_fewPrints : Distinct (· ∈ fewPrints) := by
  have h : ∀ fp ∈ fewPrints, ∀ fp' ∈ fewPrints, fp'.key = fp.key → fp' = fp := by decide
  exact fun {fp fp'} hf hf' => h fp hf fp' hf'

end CompileCache.Cache
