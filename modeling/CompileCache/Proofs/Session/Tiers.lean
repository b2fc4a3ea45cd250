import CompileCache.Proofs.Fingerprint.Keys
import CompileCache.Proofs.Session.Sound

/-!
# Tiers — exactly what an emit does

* `Desk.tier`, **`Desk.Way.outcome_eq`**: the way of a job is told by the request and by what is
  stored.
* `Desk.Exact`: outcome, calls, stored and returned artifact of an emit, for any compiler.
* `Desk.exact_emit`: every emission is exact.
* `Disk.Straight` paths keep what is stored for other fingerprints: `Desk.stored?_emit_of_ne`.
* **`Host.emit_exact`**: emits are exact in all hosts that runs lead to.
* `Host.stored_by_detour`: a path with two points lets an emit change what is stored for another
  fingerprint.
-/

namespace CompileCache

variable {σ : Type}

/-- Whether a call compiles a path. -/
def Call.compiles : Call → Bool
  | .compile .. => true
  | _ => false

/-- Whether a call only checks a path. -/
def Call.checks : Call → Bool
  | .diagnose .. => true
  | _ => false

/-- Whether an artifact was compiled anew. -/
def Outcome.compiles : Outcome → Bool
  | .uncached | .miss | .recompiled => true
  | .reuse | .patched => false

namespace Desk

variable (d : Digest) (e : Engine σ)

/-- The way that a job has to go, by whether the cache is asked and by what is stored. -/
def tier (roots : List String) (s : Source) (asked : Bool) (stored : Option Artifact) : Outcome :=
  if asked = false then .uncached
  else match stored with
    | none => .miss
    | some u =>
      match u.actionFor d roots s with
      | .reuse => .reuse
      | .refreshDiagnostics => .patched
      | .recompile => .recompiled

variable {d e} {k : Desk σ} {job : Job} {fp fp' : Fingerprint} {asked : Bool} {r : Result σ}
  {em : Emission}

/-- **The way of a job is told by the request and by what is stored.** -/
theorem Way.outcome_eq (h : Way d e k job fp asked r) (hr : r.answer = .ok em) :
    em.outcome = tier d job.roots job.source asked (k.cache.lookup? k.disk fp) := by
  unfold tier
  cases h with
  | uncached => cases hr; rfl
  | miss hs => cases hr; rw [hs]; rfl
  | recompiled hs ha => cases hr; rw [hs]; dsimp only; rw [ha]; rfl
  | patched hs ha => cases hr; rw [hs]; dsimp only; rw [ha]; rfl
  | reused hs ha => cases hr; rw [hs]; dsimp only; rw [ha]; rfl
  | failed => cases hr

/-! ## What is to be done -/

variable {u : Artifact} {roots : List String} {s : Source}

theorem actionFor_eq_recompile_iff : u.actionFor d roots s = .recompile ↔
    u.dependencies.staleness d roots s = .typings ∨
      u.dependencies.staleness d roots s = .files := by
  unfold Artifact.actionFor Staleness.decide
  cases u.dependencies.staleness d roots s <;> simp
  split <;> simp

theorem actionFor_eq_refresh_iff : u.actionFor d roots s = .refreshDiagnostics ↔
    u.dependencies.staleness d roots s = .modules ∨
      (u.dependencies.staleness d roots s = .fresh ∧ u.diagnostics.hasUnresolved = true) := by
  unfold Artifact.actionFor Staleness.decide
  cases u.dependencies.staleness d roots s <;> simp

theorem actionFor_eq_reuse_iff : u.actionFor d roots s = .reuse ↔
    u.dependencies.staleness d roots s = .fresh ∧ u.diagnostics.hasUnresolved = false := by
  unfold Artifact.actionFor Staleness.decide
  cases u.dependencies.staleness d roots s <;> simp

theorem tier_eq_uncached_iff {stored : Option Artifact} :
    tier d roots s asked stored = .uncached ↔ asked = false := by
  unfold tier
  cases asked with
  | false => simp
  | true =>
    cases stored with
    | none => simp
    | some u => cases hu : u.actionFor d roots s <;> simp [hu]

theorem tier_eq_miss_iff {stored : Option Artifact} :
    tier d roots s true stored = .miss ↔ stored = none := by
  unfold tier
  cases stored with
  | none => simp
  | some u => cases hu : u.actionFor d roots s <;> simp [hu]

theorem tier_some (u : Artifact) :
    (tier d roots s true (some u) = .recompiled ↔ u.actionFor d roots s = .recompile) ∧
    (tier d roots s true (some u) = .patched ↔ u.actionFor d roots s = .refreshDiagnostics) ∧
    (tier d roots s true (some u) = .reuse ↔ u.actionFor d roots s = .reuse) := by
  unfold tier
  cases hu : u.actionFor d roots s <;> simp [hu]

/-! ## Other fingerprints -/

theorem Way.directory (h : Way d e k job fp asked r) :
    r.desk.cache.directory = k.cache.directory := by
  have hf := Cache.directory_fetch k.cache k.disk fp
  cases h with
  | uncached => rfl
  | miss | recompiled | patched | reused => exact hf
  | failed hc _ =>
    rcases hc with rfl | rfl
    · rfl
    · exact hf

theorem Way.held?_of_ne (h : Way d e k job fp asked r) (hne : fp'.key ≠ fp.key) :
    r.desk.cache.held? fp' = k.cache.held? fp' := by
  have hf := Cache.held?_fetch_of_ne k.cache k.disk hne
  cases h with
  | uncached => exact Cache.held?_save_of_ne k.cache k.disk _ hne
  | miss | recompiled | patched =>
    exact (Cache.held?_save_of_ne (k.cache.fetch k.disk fp) k.disk _ hne).trans hf
  | reused => exact hf
  | failed hc _ =>
    rcases hc with rfl | rfl
    · rfl
    · exact hf

theorem disk_storing (k : Desk σ) (cache : Cache) (fp : Fingerprint) (em : Emission) (slot : Slot σ)
    (calls : List Call) :
    (k.storing cache fp em slot calls).desk.disk = (cache.save k.disk fp em.unit).2 := rfl

theorem Way.disk_eq (h : Way d e k job fp asked r) : r.desk.disk = k.disk ∨
    ∃ directory ∈ k.cache.directory, ∃ body,
      r.desk.disk = (k.disk.writeUnder (Cache.entryPath directory fp.key) body).1 := by
  have stored : ∀ (c : Cache) (u : Artifact), c.directory = k.cache.directory →
      (c.save k.disk fp u).2 = k.disk ∨ ∃ directory ∈ k.cache.directory, ∃ body,
        (c.save k.disk fp u).2 = (k.disk.writeUnder (Cache.entryPath directory fp.key) body).1 := by
    intro c u hc
    unfold Cache.save Cache.writeEntry Cache.entryPath?
    rw [hc]
    cases hd : k.cache.directory with
    | none => exact .inl rfl
    | some directory =>
      dsimp only [Option.map_some]
      exact .inr ⟨directory, rfl, .entry ⟨fp, u⟩, rfl⟩
  have hf := Cache.directory_fetch k.cache k.disk fp
  cases h with
  | uncached =>
    rw [disk_storing]
    exact stored k.cache _ rfl
  | miss | recompiled | patched =>
    rw [disk_storing]
    exact stored (k.cache.fetch k.disk fp) _ hf
  | reused | failed => exact .inl rfl

/-- What the cache holds for a fingerprint. -/
def stored? (k : Desk σ) (fp : Fingerprint) : Option Artifact := k.cache.lookup? k.disk fp

/-- If there is a cache directory, then the entry files of two fingerprints and the file of the
versions have paths without two points that pass no link. -/
def StraightFor (k : Desk σ) (fp fp' : Fingerprint) : Prop :=
  ∀ directory ∈ k.cache.directory, k.disk.Straight (Cache.entryPath directory fp.key) ∧
    k.disk.Straight (Cache.entryPath directory fp'.key) ∧
    ∀ file ∈ k.slot.tableFile, k.disk.Straight file

theorem names_entryPath_ne_tablePath (directory key directory' arch : String) :
    Path.names (Cache.entryPath directory key) ≠ Path.names (Slot.tablePath directory' arch) := by
  obtain ⟨lead, hl⟩ := Path.exists_join_eq (Path.join directory "entries") (key ++ ".rkyv")
  obtain ⟨lead', hl'⟩ := Path.exists_join_eq (Path.join directory' "versions") (arch ++ ".json")
  obtain ⟨ns, n, hn⟩ := Path.exists_names_append (lead ++ key) ".rkyv" (by decide) (by decide)
  obtain ⟨ns', n', hn'⟩ := Path.exists_names_append (lead' ++ arch) ".json" (by decide) (by decide)
  rw [Cache.entryPath, Slot.tablePath, hl, hl', ← String.append_assoc, ← String.append_assoc, hn,
    hn']
  intro h
  have hlast := List.append_inj_right' h rfl
  have hchars : n.toList ++ ".rkyv".toList = n'.toList ++ ".json".toList := by
    rw [← String.toList_append, ← String.toList_append, (List.cons.inj hlast).1]
  have htail := List.append_inj_right' hchars rfl
  exact absurd htail (by decide)

variable {view : View} {b : Build} {path content : String} {moduleName : Option String}

theorem tableFile_workOf : (k.workOf d e view b path content moduleName).desk.slot.tableFile =
    k.slot.tableFile := by
  have h := station_work (d := d) (e := e) (k.ready d e b path content)
    (k.jobOf d view b path content moduleName) (.of d content b.set.options.emit moduleName)
    b.set.options.useCache
  refine (congrArg (·.2.1) h).trans ?_
  unfold ready Slot.station Slot.activate
  dsimp only
  split <;> rfl

theorem disk_finish (version : UInt64) (r : Result σ) :
    (finish version r).desk.disk = r.desk.disk ∨ ∃ file ∈ r.desk.slot.tableFile, ∃ text,
      (finish version r).desk.disk = (r.desk.disk.writeUnder file (.ofText text)).1 := by
  unfold finish
  split
  · exact .inl rfl
  · exact r.desk.slot.persist_snd r.desk.disk

theorem straight_emit {q : String} (hq : k.disk.Straight q) (view : View) (b : Build)
    (path : String) (moduleName : Option String) :
    (k.emit d e view b path moduleName).desk.disk.Straight q := by
  rcases emit_eq_or (d := d) (e := e) k view b path moduleName with h | ⟨content, -, -, h⟩
  · rw [h]; exact hq
  · have hwork : (k.workOf d e view b path content moduleName).desk.disk.Straight q := by
      rcases (way_workOf k view b path content moduleName).disk_eq with hk | ⟨_, -, body, hk⟩
      · rw [hk]; exact hq
      · rw [hk]; exact hq.writeUnder _ _
    rw [h, emitContent_eq]
    dsimp only
    rcases disk_finish (k.slot.tracker.version d path content).1
      (k.workOf d e view b path content moduleName) with hk | ⟨file, -, text, hk⟩
    · rw [hk]; exact hwork
    · rw [hk]; exact hwork.writeUnder _ _

/-- **An emit leaves all files but those of its entry and of its versions**, if their paths are
straight. -/
theorem read_emit_of_ne {q : String} (hq : k.disk.Straight q)
    (hentry : ∀ content, (view b.set.origin).content path = some content →
      ∀ directory ∈ k.cache.directory,
        k.disk.Straight (Cache.entryPath directory
          (Fingerprint.of d content b.set.options.emit moduleName).key) ∧
        Path.names q ≠ Path.names (Cache.entryPath directory
          (Fingerprint.of d content b.set.options.emit moduleName).key))
    (htable : ∀ file ∈ k.slot.tableFile, k.disk.Straight file ∧ Path.names q ≠ Path.names file) :
    ((k.emit d e view b path moduleName).desk.disk.read q).toOption =
      (k.disk.read q).toOption := by
  rcases emit_eq_or (d := d) (e := e) k view b path moduleName with h | ⟨content, -, hc, h⟩
  · rw [h]
  -- the paths stay straight over the first write, or the second could reach the same file
  have hwork : ((k.workOf d e view b path content moduleName).desk.disk.read q).toOption =
        (k.disk.read q).toOption ∧
      ∀ p, k.disk.Straight p →
        (k.workOf d e view b path content moduleName).desk.disk.Straight p := by
    rcases (way_workOf k view b path content moduleName).disk_eq with hk | ⟨directory, hd, body, hk⟩
    · rw [hk]
      exact ⟨rfl, fun p hp => hp⟩
    · obtain ⟨hs, hne⟩ := hentry content hc directory hd
      rw [hk]
      exact ⟨Disk.read_writeUnder_of_ne hs hq hne body, fun p hp => hp.writeUnder _ _⟩
  obtain ⟨hread, hstraight⟩ := hwork
  rw [h, emitContent_eq, ← hread]
  dsimp only
  rcases disk_finish (k.slot.tracker.version d path content).1
    (k.workOf d e view b path content moduleName) with hk | ⟨file, hf, text, hk⟩
  · rw [hk]
  · rw [hk]
    rw [tableFile_workOf] at hf
    obtain ⟨hs, hne⟩ := htable file hf
    exact Disk.read_writeUnder_of_ne (hstraight _ hs) (hstraight _ hq) hne _

/-- **What is stored for other keys stays**, if the paths of the files are straight. -/
theorem stored?_emit_of_ne (hp : '/' ∉ fp.key.toList) (hp' : '/' ∉ fp'.key.toList)
    (hfp : fp = .of d content b.set.options.emit moduleName)
    (hc : (view b.set.origin).content path = some content) (hne : fp'.key ≠ fp.key)
    (htables : ∀ file ∈ k.slot.tableFile, ∃ directory arch, file = Slot.tablePath directory arch)
    (hs : k.StraightFor fp fp') :
    (k.emit d e view b path moduleName).desk.stored? fp' = k.stored? fp' := by
  rcases emit_eq_or (d := d) (e := e) k view b path moduleName with h | ⟨content', -, hc', h⟩
  · rw [h]
  rw [hc] at hc'
  cases hc'
  have way := way_workOf (d := d) (e := e) k view b path content moduleName
  rw [← hfp] at way
  have hread : ∀ directory ∈ k.cache.directory,
      ((k.emit d e view b path moduleName).desk.disk.read
        (Cache.entryPath directory fp'.key)).toOption =
      (k.disk.read (Cache.entryPath directory fp'.key)).toOption := by
    intro directory hd
    obtain ⟨hentry, hother, hfile⟩ := hs directory hd
    refine read_emit_of_ne hother ?_ ?_
    · intro content' hc' directory' hd'
      rw [hc] at hc'
      cases hc'
      cases hd.symm.trans hd'
      rw [← hfp]
      exact ⟨hentry, Cache.names_entryPath_ne directory hp hp' hne⟩
    · intro file hf
      obtain ⟨directory', arch, rfl⟩ := htables file hf
      exact ⟨hfile _ hf, names_entryPath_ne_tablePath _ _ _ _⟩
  rw [h] at hread ⊢
  refine Cache.lookup?_congr ?_ ?_ hread
  · rw [cache_emitContent]
    exact way.held?_of_ne hne
  · rw [cache_emitContent]
    exact way.directory

/-! ## Exactness -/

section Exact

variable (d e)

/-- How stale a stored artifact is for a build at the moment of an emit. -/
def classOf (k : Desk σ) (view : View) (b : Build) (u : Artifact) : Staleness :=
  (classify d u.dependencies b.set.options.types k.slot.tracker (view b.set.origin)).1

/-- What an emission under the fingerprint `fp` says of the desks before and after it, and of the
calls that were made. -/
structure Exact (k after : Desk σ) (view : View) (b : Build) (path : String)
    (moduleName : Option String) (fp : Fingerprint) (em : Emission) (calls : List Call) : Prop where
  uncached : em.outcome = .uncached ↔ b.set.options.useCache = false
  miss : b.set.options.useCache = true → (em.outcome = .miss ↔ k.stored? fp = none)
  recompiled : b.set.options.useCache = true → ∀ u, k.stored? fp = some u →
    (em.outcome = .recompiled ↔ k.classOf d view b u = .typings ∨ k.classOf d view b u = .files)
  patched : b.set.options.useCache = true → ∀ u, k.stored? fp = some u →
    (em.outcome = .patched ↔ k.classOf d view b u = .modules ∨
      (k.classOf d view b u = .fresh ∧ u.diagnostics.hasUnresolved = true))
  reuse : b.set.options.useCache = true → ∀ u, k.stored? fp = some u →
    (em.outcome = .reuse ↔ k.classOf d view b u = .fresh ∧ u.diagnostics.hasUnresolved = false)
  /-- One path is compiled, or none. -/
  compiles : calls.filter Call.compiles =
    if em.outcome.compiles then [.compile k.slot.arch path moduleName] else []
  /-- One path is checked, or none. -/
  checks : calls.filter Call.checks =
    if em.outcome = .patched then [.diagnose k.slot.arch path] else []
  /-- The compiler got these calls, and no others. -/
  engine : after.slot.engine = e.replay view k.slot.engine calls
  /-- What was compiled is stored. -/
  compiledStored : em.outcome.compiles = true → ∃ out u,
    (e.compile view (k.slot.activate e b).1.engine path moduleName).1 = .ok out ∧
    after.stored? fp = some u ∧ u.path = path ∧ u.code = out.code ∧
    u.diagnostics = out.diagnostics ∧
    u.dependencies.hashes = out.references.hashes d (view b.set.origin)
  /-- What was stored is stored with other diagnostics and dependencies. -/
  patchedStored : em.outcome = .patched → ∃ u report deps, k.stored? fp = some u ∧
    (e.diagnose view (k.slot.activate e b).1.engine path).1 = .ok report ∧
    after.stored? fp = some { u with diagnostics := report.diagnostics, dependencies := deps } ∧
    deps.hashes = report.references.hashes d (view b.set.origin)
  reusedStored : em.outcome = .reuse → after.stored? fp = k.stored? fp
  /-- What is returned is what is stored, with the version that the tracker has for the path. -/
  returned : ∃ u stamp, after.stored? fp = some u ∧
    after.slot.tracker.current path = some stamp ∧ em.unit = { u with version := stamp.version }
  /-- What is stored for other fingerprints stays, if the digest separates them. -/
  others : ∀ content' options' moduleName',
    Fingerprint.of d content' options' moduleName' ≠ fp →
    d.Separates (Fingerprint.of d content' options' moduleName').bytes fp.bytes → fp.Sized →
    (Fingerprint.of d content' options' moduleName').Sized →
    k.StraightFor fp (.of d content' options' moduleName') →
    after.stored? (.of d content' options' moduleName') =
      k.stored? (.of d content' options' moduleName')

end Exact

theorem classOf_eq (k : Desk σ) (view : View) (b : Build) (u : Artifact) :
    k.classOf d view b u =
      u.dependencies.staleness d b.set.options.types (view b.set.origin) := classify_fst _ _ _ _

theorem Way.stored (h : Way d e k job fp asked r) (hr : r.answer = .ok em) (disk : Disk) :
    r.desk.cache.lookup? disk fp = some em.unit := by
  cases h with
  | uncached => cases hr; exact Cache.lookup?_save k.cache k.disk disk fp _
  | miss | recompiled | patched =>
    cases hr; exact Cache.lookup?_save (k.cache.fetch k.disk fp) k.disk disk fp _
  | reused hs => cases hr; exact Cache.lookup?_fetch hs disk
  | failed => cases hr

theorem Way.compiled (h : Way d e k job fp asked r) (hr : r.answer = .ok em)
    (ho : em.outcome.compiles = true) : ∃ out,
      (e.compile job.view k.slot.engine job.path job.moduleName).1 = .ok out ∧
      em.unit.path = job.path ∧ em.unit.code = out.code ∧ em.unit.diagnostics = out.diagnostics ∧
      em.unit.dependencies.hashes = out.references.hashes d job.source := by
  have output : ∀ {s s' : Slot σ} {u : Artifact}, s.engine = k.slot.engine →
      s.compile d e job = (.ok u, s') → ∃ out,
        (e.compile job.view k.slot.engine job.path job.moduleName).1 = .ok out ∧
        u.path = job.path ∧ u.code = out.code ∧ u.diagnostics = out.diagnostics ∧
        u.dependencies.hashes = out.references.hashes d job.source := by
    intro s s' u hs hc
    obtain ⟨out, hout, rfl, -⟩ := Slot.exists_of_compile hc
    rw [hs] at hout
    exact ⟨out, hout, rfl, rfl, rfl, References.hashes_stamped _ _ _⟩
  cases h with
  | uncached hc | miss _ hc => cases hr; exact output rfl hc
  | @recompiled stored _ _ _ _ hc =>
    cases hr
    exact output (s := k.slot.classified d stored job) rfl hc
  | patched | reused => cases hr; cases ho
  | failed => cases hr

theorem Way.patched_of (h : Way d e k job fp asked r) (hr : r.answer = .ok em)
    (ho : em.outcome = .patched) : ∃ u report deps, k.cache.lookup? k.disk fp = some u ∧
      (e.diagnose job.view k.slot.engine job.path).1 = .ok report ∧
      em.unit = u.patched report.diagnostics deps ∧
      deps.hashes = report.references.hashes d job.source := by
  cases h with
  | uncached | miss | recompiled | reused => cases hr; cases ho
  | patched hs ha href =>
    cases hr
    obtain ⟨report, hrep, rfl, -⟩ := Slot.exists_of_refresh href
    exact ⟨_, report, _, hs, hrep, rfl, References.hashes_stamped _ _ _⟩
  | failed => cases hr

theorem Way.reused_of (h : Way d e k job fp asked r) (hr : r.answer = .ok em)
    (ho : em.outcome = .reuse) : k.cache.lookup? k.disk fp = some em.unit := by
  cases h with
  | uncached | miss | recompiled | patched => cases hr; cases ho
  | reused hs => cases hr; exact hs
  | failed => cases hr

theorem Way.calls_eq (h : Way d e k job fp asked r) (hr : r.answer = .ok em) : r.calls =
    if em.outcome.compiles then [.compile k.slot.arch job.path job.moduleName]
    else if em.outcome = .patched then [.diagnose k.slot.arch job.path] else [] := by
  cases h with
  | uncached | miss | recompiled | patched | reused => cases hr; rfl
  | failed => cases hr

theorem arch_ready (k : Desk σ) (b : Build) (path content : String) :
    (k.ready d e b path content).slot.arch = k.slot.arch := by
  unfold ready Slot.activate
  dsimp only
  split <;> rfl

theorem filter_loads (s : Slot σ) (b : Build) {p : Call → Bool}
    (hp : ∀ arch set, p (.load arch set) = false) : (s.activate e b).2.filter p = [] := by
  unfold Slot.activate
  split
  · rfl
  · simp [hp]

theorem current_finish (version : UInt64) (r : Result σ) (path : String) :
    (finish version r).desk.slot.tracker.current path = r.desk.slot.tracker.current path := by
  unfold finish
  split
  · rfl
  · exact Slot.current_persist _ _ _

theorem lookup?_emitContent (hw : (k.workOf d e view b path content moduleName).answer = .ok em)
    (disk : Disk) : (k.emitContent d e view b path content moduleName).desk.cache.lookup? disk
      (.of d content b.set.options.emit moduleName) = some em.unit := by
  rw [cache_emitContent]
  exact (way_workOf k view b path content moduleName).stored hw disk

theorem calls_emitContent (k : Desk σ) (view : View) (b : Build) (path content : String)
    (moduleName : Option String) :
    (k.emitContent d e view b path content moduleName).calls =
      (k.slot.activate e b).2 ++ (k.workOf d e view b path content moduleName).calls := by
  rw [emitContent_eq]
  dsimp only
  rw [calls_finish]

theorem current_emitContent (hc : (view b.set.origin).content path = some content) :
    (k.emitContent d e view b path content moduleName).desk.slot.tracker.current path =
      some ⟨(k.slot.tracker.version d path content).1, d.ofText content⟩ := by
  have hobs := observes_work (d := d) (e := e) (k.ready d e b path content)
    (k.jobOf d view b path content moduleName) (.of d content b.set.options.emit moduleName)
    b.set.options.useCache
  rw [emitContent_eq]
  dsimp only
  rw [current_finish]
  exact hobs.current_eq hc (k.slot.tracker.current_version path content) rfl

theorem outcome_emit (hc : (view b.set.origin).content path = some content)
    (h : (k.emit d e view b path moduleName).answer = .ok em) :
    em.outcome = tier d b.set.options.types (view b.set.origin) b.set.options.useCache
      (k.stored? (.of d content b.set.options.emit moduleName)) := by
  rw [emit_eq_of_ok hc h] at h
  obtain ⟨em', hw, ho, -⟩ := exists_of_emitContent h
  exact ho.trans ((way_workOf k view b path content moduleName).outcome_eq hw)

theorem exact_emit (hplain : d.Plain)
    (hc : (view b.set.origin).content path = some content)
    (htables : ∀ file ∈ k.slot.tableFile, ∃ directory arch, file = Slot.tablePath directory arch)
    (h : (k.emit d e view b path moduleName).answer = .ok em) :
    Exact d e k (k.emit d e view b path moduleName).desk view b path moduleName
      (.of d content b.set.options.emit moduleName) em
      (k.emit d e view b path moduleName).calls := by
  have hout := outcome_emit hc h
  have he := emit_eq_of_ok hc h
  have hengine := engine_emit (d := d) (e := e) k view b path moduleName
  rw [he] at h hengine ⊢
  obtain ⟨em', hw, ho, hu⟩ := exists_of_emitContent h
  have way := way_workOf (d := d) (e := e) k view b path content moduleName
  have hstored : (k.emitContent d e view b path content moduleName).desk.stored?
      (.of d content b.set.options.emit moduleName) = some em'.unit := lookup?_emitContent hw _
  have hcalls := calls_emitContent (d := d) (e := e) k view b path content moduleName
  have hway := way.calls_eq hw
  rw [arch_ready] at hway
  refine { uncached := ?uncached, miss := ?miss, recompiled := ?recompiled, patched := ?patched,
           reuse := ?reuse, compiles := ?compiles, checks := ?checks, engine := hengine,
           compiledStored := ?compiledStored, patchedStored := ?patchedStored,
           reusedStored := ?reusedStored, returned := ?returned, others := ?others }
  case uncached => rw [hout]; exact tier_eq_uncached_iff
  case miss =>
    intro hasked
    rw [hout, hasked]
    exact tier_eq_miss_iff
  case recompiled =>
    intro hasked u hs
    rw [hout, hasked, hs, classOf_eq]
    exact (tier_some u).1.trans actionFor_eq_recompile_iff
  case patched =>
    intro hasked u hs
    rw [hout, hasked, hs, classOf_eq]
    exact (tier_some u).2.1.trans actionFor_eq_refresh_iff
  case reuse =>
    intro hasked u hs
    rw [hout, hasked, hs, classOf_eq]
    exact (tier_some u).2.2.trans actionFor_eq_reuse_iff
  case compiles =>
    rw [hcalls, List.filter_append, filter_loads _ _ fun _ _ => rfl, hway, ho]
    cases em'.outcome <;> rfl
  case checks =>
    rw [hcalls, List.filter_append, filter_loads _ _ fun _ _ => rfl, hway, ho]
    cases em'.outcome <;> rfl
  case compiledStored =>
    intro hcomp
    obtain ⟨out, hc₁, hc₂⟩ := way.compiled hw (ho ▸ hcomp)
    exact ⟨out, em'.unit, hc₁, hstored, hc₂⟩
  case patchedStored =>
    intro hpatched
    obtain ⟨u, report, deps, h₁, h₂, h₃, h₄⟩ := way.patched_of hw (ho ▸ hpatched)
    exact ⟨u, report, deps, h₁, h₂, by rw [hstored, h₃]; rfl, h₄⟩
  case reusedStored =>
    intro hreuse
    exact hstored.trans (way.reused_of hw (ho ▸ hreuse)).symm
  case returned =>
    exact ⟨em'.unit, _, hstored, current_emitContent hc, hu⟩
  case others =>
    intro content' options' moduleName' hne hseparates hsized hsized' hstraight
    rw [← he]
    refine stored?_emit_of_ne (hplain _) (hplain _) rfl hc (fun hk => hne ?_) htables hstraight
    exact Fingerprint.eq_of_key_eq hseparates hsized' hsized hk

end Desk

/-! ## Hosts -/

/-- The emission in an answer. -/
def Answer.emission? : Answer → Option Emission
  | .emitted r => r.toOption
  | _ => none

theorem ok_of_toOption {α β : Type} {r : Except α β} {a : β} (h : r.toOption = some a) :
    r = .ok a := by
  cases r with
  | error err => cases h
  | ok b => cases h; rfl

theorem Answer.eq_of_emission? {a : Answer} {em : Emission} (h : a.emission? = some em) :
    a = .emitted (.ok em) := by
  unfold emission? at h
  split at h
  · next r => rw [ok_of_toOption h]
  · cases h

theorem Answer.exists_emission {r : Answer × List Call} (h : r.1.emission?.isSome = true) :
    ∃ em calls, r = (.emitted (.ok em), calls) := by
  obtain ⟨em, hem⟩ := Option.isSome_iff_exists.1 h
  exact ⟨em, r.2, Prod.ext (eq_of_emission? hem) rfl⟩

namespace Host

variable {d : Digest} {e : Engine σ} {h : Host σ}

theorem step_emit_eq {name : String} (path : String) (moduleName : Option String) {i : Nat}
    {b : Build} {s : Session σ} {slot : Slot σ} (hb : h.builds.get? name = some (i, b))
    (hs : h.sessions[i]? = some s) (hslot : s.slots[b.slot]? = some slot) :
    ∃ s' slot', (h.step d e (.emit name path moduleName)).1.sessions[i]? = some s' ∧
      s'.slots[b.slot]? = some slot' ∧
      (Desk.emit d e ⟨slot, s.cache, h.world.disk⟩ (Origin.source h.world) b path moduleName).desk =
        ⟨slot', s'.cache, (h.step d e (.emit name path moduleName)).1.world.disk⟩ ∧
      (h.step d e (.emit name path moduleName)).2 = (.emitted
        (Desk.emit d e ⟨slot, s.cache, h.world.disk⟩ (Origin.source h.world) b path
          moduleName).answer,
        (Desk.emit d e ⟨slot, s.cache, h.world.disk⟩ (Origin.source h.world) b path
          moduleName).calls) := by
  unfold step
  dsimp only
  rw [hb]
  unfold Host.emit
  dsimp only
  rw [hs]
  unfold settled Session.emit
  dsimp only
  rw [hslot]
  dsimp only
  refine ⟨_, _, List.getElem?_set_self (List.getElem?_eq_some_iff.1 hs).1,
    List.getElem?_set_self (List.getElem?_eq_some_iff.1 hslot).1, rfl, rfl⟩

/-- **Emits are exact in all hosts that runs lead to**, for any compiler. -/
theorem emit_exact (hp : d.Plain) (hr : Reachable d e h) {name path : String}
    {moduleName : Option String} {i : Nat} {b : Build} {content : String} {em : Emission}
    {calls : List Call} (hb : h.builds.get? name = some (i, b))
    (hc : (b.set.origin.source h.world).content path = some content)
    (hstep : (h.step d e (.emit name path moduleName)).2 = (.emitted (.ok em), calls)) :
    ∃ s slot s' slot', h.sessions[i]? = some s ∧ s.slots[b.slot]? = some slot ∧
      (h.step d e (.emit name path moduleName)).1.sessions[i]? = some s' ∧
      s'.slots[b.slot]? = some slot' ∧
      Desk.Exact d e ⟨slot, s.cache, h.world.disk⟩
        ⟨slot', s'.cache, (h.step d e (.emit name path moduleName)).1.world.disk⟩
        (Origin.source h.world) b path moduleName (.of d content b.set.options.emit moduleName) em
        calls := by
  have hsound := hr.sound e.keeps_true
  have hi := hsound.places i b ⟨name, hb⟩
  have hs := List.getElem?_eq_getElem hi
  have hknown := hsound.sessions i _ hs
  obtain ⟨slot, hslot, -⟩ := hknown.known b ⟨name, hb⟩
  obtain ⟨s', slot', hs', hslot', hdesk, hanswer⟩ :=
    step_emit_eq (d := d) (e := e) path moduleName hb hs hslot
  refine ⟨_, slot, s', slot', hs, hslot, hs', hslot', ?_⟩
  rw [hstep] at hanswer
  obtain ⟨hanswer, hcalls⟩ := Prod.mk.inj hanswer
  have hexact := Desk.exact_emit (d := d) (e := e) hp hc
    (hknown.tables slot (List.mem_of_getElem? hslot)) (Answer.emitted.inj hanswer).symm
  rw [hdesk, ← hcalls] at hexact
  exact hexact

/-! ## Two runs -/

/-- What all requests with the options that nobody changed end in. -/
def usualTail : List UInt8 := Fingerprint.framed ({} : Options).emit.text ++ [0]

/-- The fingerprint of a content with these options. -/
def usual (content : String) : Fingerprint :=
  .of (.brief usualTail) content ({} : Options).emit none

/-- What the cache of the first session holds for a fingerprint. -/
def stored? (h : Host Unit) (fp : Fingerprint) : Option Artifact :=
  (h.sessions[0]?).bind fun s => s.cache.lookup? h.world.disk fp

/-- A compiler that looks at the module `b.ts` for all paths. -/
def leaningCompiler : Engine Unit where
  create _ := ()
  load _ _ := ()
  compile _ _ _ _ := (.ok ⟨⟨⟨[], []⟩, ⟨.empty, .ofList ["b.ts"], none⟩⟩, some "x;"⟩, ())
  diagnose _ _ _ := (.ok ⟨⟨[], []⟩, ⟨.empty, .ofList ["b.ts"], none⟩⟩, ())

/-- The build of two files. -/
def leaningBuild : Build := ⟨⟨["a.ts", "c.ts"], .live, {}⟩, 0, 1⟩

/-- The host after two files were emitted with a cache directory and their module was changed. -/
def leaning : Host Unit := (Host.new.run (.brief usualTail) leaningCompiler
  [.bind "" "b", .edit "a.ts" (some "x"), .edit "b.ts" (some "y"), .edit "c.ts" (some "z"),
    .register "" "m" ["a.ts", "c.ts"] .live {}, .emit "m" "a.ts" none, .emit "m" "c.ts" none,
    .edit "b.ts" (some "w")]).1

/-- An emit of the first file patches its artifact, and leaves that of the second one. -/
theorem emit_leaning : ∃ em calls s slot s' slot',
    (leaning.step (.brief usualTail) leaningCompiler (.emit "m" "a.ts" none)).2 =
      (.emitted (.ok em), calls) ∧ em.outcome = .patched ∧ leaning.sessions[0]? = some s ∧
    s.slots[0]? = some slot ∧
    (leaning.step (.brief usualTail) leaningCompiler
      (.emit "m" "a.ts" none)).1.sessions[0]? = some s' ∧ s'.slots[0]? = some slot' ∧
    Desk.Exact (.brief usualTail) leaningCompiler ⟨slot, s.cache, leaning.world.disk⟩
      ⟨slot', s'.cache, (leaning.step (.brief usualTail) leaningCompiler
        (.emit "m" "a.ts" none)).1.world.disk⟩
      (Origin.source leaning.world) leaningBuild "a.ts" none (usual "x") em calls ∧
    ∃ u, s.cache.lookup? leaning.world.disk (usual "z") = some u ∧
      s'.cache.lookup? (leaning.step (.brief usualTail) leaningCompiler
        (.emit "m" "a.ts" none)).1.world.disk (usual "z") = some u := by
  have hreachable : Reachable (.brief usualTail) leaningCompiler leaning := Reachable.new.run _
  have hrun : leaning.builds.get? "m" = some (0, leaningBuild) ∧
    (Origin.source leaning.world leaningBuild.set.origin).content "a.ts" = some "x" ∧
    (leaning.step (.brief usualTail) leaningCompiler
      (.emit "m" "a.ts" none)).2.1.emission?.map (·.outcome) = some .patched ∧
    (leaning.sessions[0]?).bind (·.cache.directory) = some "b" ∧
    (leaning.sessions[0]?).bind (fun s => (s.slots[0]?).bind (·.tableFile)) =
      some (Slot.tablePath "b" "os") ∧
    (leaning.stored? (usual "z")).isSome = true ∧
    leaning.world.disk.Straight (Cache.entryPath "b" (usual "x").key) ∧
    leaning.world.disk.Straight (Cache.entryPath "b" (usual "z").key) ∧
    leaning.world.disk.Straight (Slot.tablePath "b" "os") := by decide +kernel
  obtain ⟨hb, hc, houtcome, hdirectory, hfile, hother, hx, hz, htable⟩ := hrun
  obtain ⟨em, hem, hpatched⟩ := Option.map_eq_some_iff.1 houtcome
  have hstep : (leaning.step (.brief usualTail) leaningCompiler (.emit "m" "a.ts" none)).2 =
      (.emitted (.ok em), (leaning.step (.brief usualTail) leaningCompiler
        (.emit "m" "a.ts" none)).2.2) := Prod.ext (Answer.eq_of_emission? hem) rfl
  obtain ⟨s, slot, s', slot', hs, hslot, hs', hslot', hexact⟩ :=
    emit_exact (Digest.brief_plain _) hreachable hb hc hstep
  -- the entry of the other file stays: all paths are straight
  rw [stored?, hs] at hother
  rw [hs] at hdirectory hfile
  rw [Option.bind_some, show s.slots[0]? = some slot from hslot] at hfile
  change s.cache.directory = some "b" at hdirectory
  change slot.tableFile = some (Slot.tablePath "b" "os") at hfile
  obtain ⟨u, hu⟩ := Option.isSome_iff_exists.1 hother
  have hothers := hexact.others "z" ({} : Options).emit none (by decide +kernel)
    ((Digest.brief_faithful _).separates _ _) ⟨by decide +kernel, by decide +kernel, nofun⟩
    ⟨by decide +kernel, by decide +kernel, nofun⟩ fun directory hd => by
      cases hdirectory.symm.trans hd
      refine ⟨hx, hz, fun file hf => ?_⟩
      cases hfile.symm.trans hf
      exact htable
  exact ⟨em, _, s, slot, s', slot', hstep, hpatched, hs, hslot, hs', hslot', hexact, u, hu,
    hothers.trans hu⟩

/-- What a compiler makes of all paths. -/
def sameCompiler : Engine Unit where
  create _ := ()
  load _ _ := ()
  compile _ _ _ _ := (.ok default, ())
  diagnose _ _ _ := (.ok default, ())

/-- A file is emitted, and the session turns to another path of the same directory, which leads
nowhere as long as a directory on the way is missing. -/
def detour : List Step :=
  [.bind "" "b", .register "" "m" ["a.ts"] (.table (.ofList [("a.ts", "x")])) {},
    .emit "m" "a.ts" none, .bind "" "n/../b",
    .register "" "m" ["c.ts"] (.table (.ofList [("c.ts", "y")])) {}]

/-- The host after the detour. -/
def detoured : Host Unit := (Host.new.run (.brief usualTail) sameCompiler detour).1

/-- **An emit can change what is stored for another fingerprint**: here it makes the missing
directory, and with it the entry of the first file is found again. -/
theorem stored_by_detour : (Digest.brief usualTail).Faithful ∧
    Reachable (.brief usualTail) sameCompiler detoured ∧
    (∃ em calls, (detoured.step (.brief usualTail) sameCompiler (.emit "m" "c.ts" none)).2 =
      (.emitted (.ok em), calls)) ∧
    Fingerprint.of (.brief usualTail) "x" ({} : Options).emit none ≠
      .of (.brief usualTail) "y" ({} : Options).emit none ∧
    detoured.stored? (.of (.brief usualTail) "x" ({} : Options).emit none) = none ∧
    (detoured.step (.brief usualTail) sameCompiler (.emit "m" "c.ts" none)).1.stored?
      (.of (.brief usualTail) "x" ({} : Options).emit none) ≠ none := by
  have hrun : ((detoured.step (.brief usualTail) sameCompiler
      (.emit "m" "c.ts" none)).2.1.emission?.isSome &&
    (detoured.stored? (.of (.brief usualTail) "x" ({} : Options).emit none)).isNone &&
    ((detoured.step (.brief usualTail) sameCompiler (.emit "m" "c.ts" none)).1.stored?
      (.of (.brief usualTail) "x" ({} : Options).emit none)).isSome) = true := by decide +kernel
  rw [Bool.and_eq_true, Bool.and_eq_true] at hrun
  obtain ⟨⟨hanswer, hbefore⟩, hafter⟩ := hrun
  refine ⟨Digest.brief_faithful _, Reachable.new.run detour, Answer.exists_emission hanswer, ?_,
    Option.isNone_iff_eq_none.1 hbefore, Option.isSome_iff_ne_none.1 hafter⟩
  intro h
  exact absurd (Fingerprint.of_inj ((Digest.brief_faithful _).separates _ _) h).1 (by decide)

end Host

end CompileCache
