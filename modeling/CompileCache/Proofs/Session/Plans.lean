import CompileCache.Proofs.Session.Tiers
import CompileCache.Proofs.Tracker.Seen

/-!
# Plans — emits as functions of what they find

* `Plan`, `planOf`: what a job is going to do, told by what is stored.
* `Plan.answer`: what it answers, told by the stamps of the source and the compiler's answers.
* **`Desk.answer_emitContent`**: that is what an emit answers, refusals included.
* `Engine.Steady`: a compiler whose answers are told by what it is loaded with;
  **`Desk.answer_emit_congr`**: then an emit answers the same on two desks that look the same to it.
* **`Desk.tracker_work`**, `Desk.tracker_workOf`, `Desk.Way.graph`, `Desk.Way.memory_self`,
  `Desk.Way.disk`: what a job leaves, in the records, in memory and on the disk.
-/

namespace CompileCache

variable {σ : Type}

/-- What a job is going to do. -/
inductive Plan where
  /-- It compiles, and the outcome says why. -/
  | compile (outcome : Outcome)
  /-- It gives a stored artifact newer diagnostics. -/
  | patch (stored : Artifact)
  /-- It returns a stored artifact. -/
  | reuse (stored : Artifact)

/-- The plan of a job, by whether the cache is asked and by what is stored. -/
def planOf (d : Digest) (roots : List String) (s : Source) (asked : Bool)
    (stored : Option Artifact) : Plan :=
  if asked = false then .compile .uncached
  else match stored with
    | none => .compile .miss
    | some u =>
      match u.actionFor d roots s with
      | .reuse => .reuse u
      | .refreshDiagnostics => .patch u
      | .recompile => .compile .recompiled

namespace Plan

/-- What is answered to a plan, by the stamps of the source and by the answers of the compiler. -/
def answer (p : Plan) (path : String) (stamp : String → Stamp)
    (compiled : Except EngineError Output) (checked : Except EngineError Report) :
    Except EngineError Emission :=
  match p with
  | .compile outcome => compiled.map fun out =>
    ⟨⟨path, (stamp path).version, out.code, out.diagnostics, out.references.sealed stamp⟩, outcome⟩
  | .patch u => checked.map fun report =>
    ⟨u.patched report.diagnostics (report.references.sealed stamp), .patched⟩
  | .reuse u => .ok ⟨u, .reuse⟩

/-- The paths that a plan stamps, by the answers of the compiler. -/
def paths (p : Plan) (compiled : Except EngineError Output) (checked : Except EngineError Report) :
    List String :=
  match p with
  | .compile _ => compiled.toOption.elim [] (·.references.paths)
  | .patch _ => checked.toOption.elim [] (·.references.paths)
  | .reuse _ => []

theorem anew_of_answer {p : Plan} {path : String} {stamp : String → Stamp}
    {compiled : Except EngineError Output} {em : Emission} (hp : p ≠ .reuse em.unit)
    (h : p.answer path stamp compiled (compiled.map (·.toReport)) = .ok em) :
    ∃ out, compiled = .ok out ∧ em.unit.diagnostics = out.diagnostics ∧
      em.unit.dependencies = out.references.sealed stamp := by
  cases hc : compiled with
  | error err =>
    rw [hc] at h
    cases p with
    | compile | patch => cases h
    | reuse u => cases h; exact absurd rfl hp
  | ok out =>
    rw [hc] at h
    cases p with
    | compile | patch => cases h; exact ⟨out, rfl, rfl, rfl⟩
    | reuse u => cases h; exact absurd rfl hp

end Plan

/-- Only an artifact that is in order is used again. -/
theorem actionFor_of_planOf {d : Digest} {roots : List String} {s : Source} {asked : Bool}
    {stored : Option Artifact} {u : Artifact} (h : planOf d roots s asked stored = .reuse u) :
    u.actionFor d roots s = .reuse := by
  unfold planOf at h
  split at h
  · cases h
  · split at h
    · cases h
    · split at h
      · next ha => cases h; exact ha
      · cases h
      · cases h

/-- The paths that are observed before a stored artifact is used, if the cache is asked. -/
def examinedPaths (d : Digest) (roots : List String) (s : Source) (asked : Bool)
    (stored : Option Artifact) : List String :=
  if asked = false then [] else stored.elim [] fun u => u.dependencies.examined d roots s

/-! ## Slots -/

namespace Slot

variable {d : Digest} {e : Engine σ}

theorem compile_fst (s : Slot σ) (job : Job) : (s.compile d e job).1 =
    (e.compile job.view s.engine job.path job.moduleName).1.map fun out =>
      ⟨job.path, job.version, out.code, out.diagnostics,
        out.references.sealed (s.tracker.seen d job.source)⟩ := by
  unfold compile recordReferences
  dsimp only
  split
  · next h => rw [h]; rfl
  · next out h =>
    rw [h]
    simp only [Except.map, ← References.stamped_fst]

theorem refresh_fst (s : Slot σ) (job : Job) : (s.refresh d e job).1 =
    (e.diagnose job.view s.engine job.path).1.map fun report =>
      (report.diagnostics, report.references.sealed (s.tracker.seen d job.source)) := by
  unfold refresh recordReferences
  dsimp only
  split
  · next h => rw [h]; rfl
  · next out h =>
    rw [h]
    simp only [Except.map, ← References.stamped_fst]

theorem seen_classified (s : Slot σ) (u : Artifact) (job : Job) :
    (s.classified d u job).tracker.seen d job.source = s.tracker.seen d job.source :=
  (observes_classified s u job).seen_eq'

theorem tracker_compile (s : Slot σ) (job : Job) : (s.compile d e job).2.tracker =
    (s.tracker.observeEach d job.source
      ((e.compile job.view s.engine job.path job.moduleName).1.toOption.elim []
        (·.references.paths))).2 := by
  unfold compile recordReferences
  dsimp only
  split
  · next h => rw [h]; rfl
  · next out h => rw [h]; exact out.references.stamped_snd _ _

theorem graph_compile {s s' : Slot σ} {job : Job} {u : Artifact}
    (h : s.compile d e job = (.ok u, s')) : s'.graph = s.graph.record job.path u.dependencies := by
  unfold compile recordReferences at h
  dsimp only at h
  split at h
  · cases h
  · cases h; rfl

theorem tracker_refresh (s : Slot σ) (job : Job) : (s.refresh d e job).2.tracker =
    (s.tracker.observeEach d job.source
      ((e.diagnose job.view s.engine job.path).1.toOption.elim [] (·.references.paths))).2 := by
  unfold refresh recordReferences
  dsimp only
  split
  · next h => rw [h]; rfl
  · next report h => rw [h]; exact report.references.stamped_snd _ _

theorem graph_refresh {s s' : Slot σ} {job : Job} {r : Diagnostics × Dependencies}
    (h : s.refresh d e job = (.ok r, s')) : s'.graph = s.graph.record job.path r.2 := by
  unfold refresh recordReferences at h
  dsimp only at h
  split at h
  · cases h
  · cases h; rfl

theorem tracker_classified (s : Slot σ) (u : Artifact) (job : Job) :
    (s.classified d u job).tracker =
      (s.tracker.observeEach d job.source (u.dependencies.examined d job.roots job.source)).2 :=
  classify_snd _ _ _ _

end Slot

/-! ## Answers -/

namespace Desk

variable {d : Digest} {e : Engine σ}

/-- The plan of a job on a desk. -/
def plan (d : Digest) (k : Desk σ) (job : Job) (fp : Fingerprint) (asked : Bool) : Plan :=
  planOf d job.roots job.source asked (k.stored? fp)

theorem answer_of_uncached (k : Desk σ) (job : Job) (fp : Fingerprint)
    (hv : job.version = (k.slot.tracker.seen d job.source job.path).version) :
    (k.uncached d e job fp).answer =
      ((Plan.compile .uncached).answer job.path (k.slot.tracker.seen d job.source)
        (e.compile job.view k.slot.engine job.path job.moduleName).1
        (e.diagnose job.view k.slot.engine job.path).1).mapError .engine := by
  have hc := k.slot.compile_fst (d := d) (e := e) job
  rw [hv] at hc
  unfold uncached Plan.answer
  dsimp only
  split <;> next h =>
    rw [h] at hc
    cases ho : (e.compile job.view k.slot.engine job.path job.moduleName).1 <;>
      rw [ho] at hc <;> cases hc
    rfl

theorem answer_of_cached (k : Desk σ) (job : Job) (fp : Fingerprint)
    (hv : job.version = (k.slot.tracker.seen d job.source job.path).version) :
    (k.cached d e job fp).answer =
      ((k.plan d job fp true).answer job.path (k.slot.tracker.seen d job.source)
        (e.compile job.view k.slot.engine job.path job.moduleName).1
        (e.diagnose job.view k.slot.engine job.path).1).mapError .engine := by
  unfold cached plan planOf stored? Cache.lookup?
  rw [if_neg (by decide)]
  dsimp only
  cases hs : (k.cache.fetch k.disk fp).held? fp with
  | none =>
    have hc := k.slot.compile_fst (d := d) (e := e) job
    rw [hv] at hc
    unfold Slot.validate Slot.replace Plan.answer
    dsimp only
    cases ho : (e.compile job.view k.slot.engine job.path job.moduleName).1 <;>
      rw [ho] at hc <;> rw [hc] <;> rfl
  | some u =>
    rw [Slot.validate_some]
    dsimp only
    cases ha : u.actionFor d job.roots job.source with
    | reuse =>
      dsimp only
      unfold Cache.settle
      rw [hs]
      rfl
    | recompile =>
      have hc := (k.slot.classified d u job).compile_fst (d := d) (e := e) job
      rw [hv, Slot.seen_classified] at hc
      change _ = (e.compile job.view k.slot.engine job.path job.moduleName).1.map _ at hc
      unfold Slot.replace Plan.answer
      dsimp only
      cases ho : (e.compile job.view k.slot.engine job.path job.moduleName).1 <;>
        rw [ho] at hc <;> rw [hc] <;> rfl
    | refreshDiagnostics =>
      have hc := (k.slot.classified d u job).refresh_fst (d := d) (e := e) job
      rw [Slot.seen_classified] at hc
      change _ = (e.diagnose job.view k.slot.engine job.path).1.map _ at hc
      unfold Plan.answer
      dsimp only
      cases ho : (e.diagnose job.view k.slot.engine job.path).1 with
      | error err =>
        rw [ho] at hc
        rw [hc]
        rfl
      | ok report =>
        rw [ho] at hc
        rw [hc]
        dsimp only [Except.map]
        unfold Cache.settle
        rw [hs]
        rfl

theorem answer_work (k : Desk σ) (job : Job) (fp : Fingerprint) (asked : Bool)
    (hv : job.version = (k.slot.tracker.seen d job.source job.path).version) :
    (k.work d e job fp asked).answer =
      ((k.plan d job fp asked).answer job.path (k.slot.tracker.seen d job.source)
        (e.compile job.view k.slot.engine job.path job.moduleName).1
        (e.diagnose job.view k.slot.engine job.path).1).mapError .engine := by
  cases asked with
  | false => exact answer_of_uncached k job fp hv
  | true => exact answer_of_cached k job fp hv

/-- What an emit of a content answers, by what is stored, the stamps of the source and the answers
of the compiler. -/
def reply (d : Digest) (set : WorkingSet) (s : Source) (path : String) (stored : Option Artifact)
    (stamp : String → Stamp) (compiled : Except EngineError Output)
    (checked : Except EngineError Report) : Except BuildError Emission :=
  (((planOf d set.options.types s set.options.useCache stored).answer path stamp compiled
      checked).mapError .engine).map
    fun em => { em with unit := { em.unit with version := (stamp path).version } }

variable {view : View} {b : Build} {path content : String} {moduleName : Option String}

theorem seen_ready (k : Desk σ) (hc : (view b.set.origin).content path = some content) :
    (k.ready d e b path content).slot.tracker.seen d (view b.set.origin) =
      k.slot.tracker.seen d (view b.set.origin) :=
  (k.slot.tracker.observes_version hc).seen_eq'

theorem answer_finish_eq (version : UInt64) (r : Result σ) : (finish version r).answer =
    r.answer.map fun em => { em with unit := { em.unit with version } } := by
  unfold finish
  split <;> next h => rw [h]; rfl

theorem answer_workOf (k : Desk σ) (hc : (view b.set.origin).content path = some content) :
    (k.workOf d e view b path content moduleName).answer =
      ((planOf d b.set.options.types (view b.set.origin) b.set.options.useCache
          (k.stored? (.of d content b.set.options.emit moduleName))).answer path
        (k.slot.tracker.seen d (view b.set.origin))
        (e.compile view (k.slot.activate e b).1.engine path moduleName).1
        (e.diagnose view (k.slot.activate e b).1.engine path).1).mapError .engine := by
  have hversion := k.slot.tracker.version_fst (d := d) hc
  have hseen := seen_ready (d := d) (e := e) k hc
  have hwork := answer_work (e := e) (k.ready d e b path content)
    (k.jobOf d view b path content moduleName) (.of d content b.set.options.emit moduleName)
    b.set.options.useCache (hversion.trans (by rw [← hseen]; rfl))
  refine hwork.trans ?_
  change Except.mapError _ (Plan.answer _ path
    ((k.ready d e b path content).slot.tracker.seen d (view b.set.origin)) _ _) = _
  rw [hseen]
  rfl

theorem answer_emitContent (k : Desk σ)
    (hc : (view b.set.origin).content path = some content) :
    (k.emitContent d e view b path content moduleName).answer =
      reply d b.set (view b.set.origin) path
        (k.stored? (.of d content b.set.options.emit moduleName))
        (k.slot.tracker.seen d (view b.set.origin))
        (e.compile view (k.slot.activate e b).1.engine path moduleName).1
        (e.diagnose view (k.slot.activate e b).1.engine path).1 := by
  rw [emitContent_eq]
  dsimp only
  rw [answer_finish_eq, answer_workOf k hc, k.slot.tracker.version_fst hc]
  rfl

theorem seen_emit (k : Desk σ) (view : View) (b : Build) (path : String)
    (moduleName : Option String) :
    (k.emit d e view b path moduleName).desk.slot.tracker.seen d (view b.set.origin) =
      k.slot.tracker.seen d (view b.set.origin) := by
  rcases emit_eq_or (d := d) (e := e) k view b path moduleName with h | ⟨content, -, hc, h⟩
  · rw [h]
  · have hobs := observes_work (d := d) (e := e) (k.ready d e b path content)
      (k.jobOf d view b path content moduleName) (.of d content b.set.options.emit moduleName)
      b.set.options.useCache
    rw [h, emitContent_eq]
    exact (Tracker.seen_congr (current_finish _ _)).trans (hobs.seen_eq'.trans (seen_ready k hc))

end Desk

/-! ## Compilers that are told by what they are loaded with -/

/-- A compiler whose answers are told by the loaded working set and by what its origin holds. -/
structure Engine.Steady (e : Engine σ) (L : σ → WorkingSet → Prop) : Prop extends e.Keeps L where
  compile_eq : ∀ {s s' : σ} {set : WorkingSet} {view view' : View}, L s set → L s' set →
    view' set.origin = view set.origin → ∀ path moduleName,
    (e.compile view' s' path moduleName).1 = (e.compile view s path moduleName).1
  diagnose_eq : ∀ {s s' : σ} {set : WorkingSet} {view view' : View}, L s set → L s' set →
    view' set.origin = view set.origin → ∀ path,
    (e.diagnose view' s' path).1 = (e.diagnose view s path).1

namespace Desk

variable {d : Digest} {e : Engine σ} {L : σ → WorkingSet → Prop} {k k' : Desk σ}
  {view view' : View} {b b' : Build} {path : String} {moduleName : Option String}

theorem loaded_activate (he : e.Keeps L)
    (hl : k.slot.active = b.registration → L k.slot.engine b.set) :
    L (k.slot.activate e b).1.engine b.set := by
  unfold Slot.activate
  split
  · next h => exact hl h
  · exact he.load _ _

/-- **An emit answers the same on two desks that look the same to it**: with the same working set
and contents, the same stamps, and the same artifact stored for it. -/
theorem answer_emit_congr (he : e.Steady L) (hset : b'.set = b.set)
    (hl : k.slot.active = b.registration → L k.slot.engine b.set)
    (hl' : k'.slot.active = b'.registration → L k'.slot.engine b'.set)
    (hview : view' b.set.origin = view b.set.origin)
    (hseen : k'.slot.tracker.seen d (view b.set.origin) = k.slot.tracker.seen d (view b.set.origin))
    (hstored : ∀ content, (view b.set.origin).content path = some content →
      k'.stored? (.of d content b.set.options.emit moduleName) =
        k.stored? (.of d content b.set.options.emit moduleName)) :
    (k'.emit d e view' b' path moduleName).answer = (k.emit d e view b path moduleName).answer := by
  have hload := loaded_activate he.toKeeps hl
  have hload' := loaded_activate he.toKeeps hl'
  rw [hset] at hload'
  unfold emit Build.contains
  rw [hset, hview]
  split
  · rfl
  · cases hc : (view b.set.origin).content path with
    | none => rfl
    | some content =>
      have hc' : (view' b'.set.origin).content path = some content := by rw [hset, hview, hc]
      dsimp only
      rw [answer_emitContent k hc, answer_emitContent k' hc', hset, hview, hseen,
        hstored content hc, he.compile_eq hload hload' hview, he.diagnose_eq hload hload' hview]

/-! ## What a job leaves -/

variable {job : Job} {fp : Fingerprint} {asked : Bool} {r : Result σ} {em : Emission}

/-- The paths that a job observes, whatever comes of it. -/
def observedPaths (d : Digest) (e : Engine σ) (k : Desk σ) (job : Job) (fp : Fingerprint)
    (asked : Bool) : List String :=
  examinedPaths d job.roots job.source asked (k.stored? fp) ++
    (k.plan d job fp asked).paths
      (e.compile job.view k.slot.engine job.path job.moduleName).1
      (e.diagnose job.view k.slot.engine job.path).1

theorem tracker_work (k : Desk σ) (job : Job) (fp : Fingerprint) (asked : Bool) :
    (k.work d e job fp asked).desk.slot.tracker =
      (k.slot.tracker.observeEach d job.source (k.observedPaths d e job fp asked)).2 := by
  unfold observedPaths plan planOf examinedPaths
  cases asked with
  | false =>
    change (k.uncached d e job fp).desk.slot.tracker = _
    rw [(slot_uncached k job fp).1]
    exact Slot.tracker_compile _ _
  | true =>
    change (k.cached d e job fp).desk.slot.tracker = _
    rw [(slot_cached k job fp).1]
    unfold stored? Cache.lookup?
    rw [if_neg (by decide), if_neg (by decide)]
    cases (k.cache.fetch k.disk fp).held? fp with
    | none => exact Slot.tracker_compile _ _
    | some u =>
      rw [Slot.validate_some]
      dsimp only
      cases u.actionFor d job.roots job.source with
      | reuse =>
        rw [Plan.paths, List.append_nil]
        exact Slot.tracker_classified _ _ _
      | recompile =>
        rw [Plan.paths, Option.elim_some, Tracker.observeEach_append, ← Slot.tracker_classified]
        exact Slot.tracker_compile _ _
      | refreshDiagnostics =>
        rw [Plan.paths, Option.elim_some, Tracker.observeEach_append, ← Slot.tracker_classified]
        exact Slot.tracker_refresh _ _

/-- The paths that an emit observes. -/
def lookedAt (d : Digest) (e : Engine σ) (k : Desk σ) (view : View) (b : Build)
    (path content : String) (moduleName : Option String) : List String :=
  path :: (k.ready d e b path content).observedPaths d e
    (k.jobOf d view b path content moduleName) (.of d content b.set.options.emit moduleName)
    b.set.options.useCache

theorem lookedAt_eq (k : Desk σ) (view : View) (b : Build) (path content : String)
    (moduleName : Option String) : k.lookedAt d e view b path content moduleName =
      path :: (examinedPaths d b.set.options.types (view b.set.origin) b.set.options.useCache
          (k.stored? (.of d content b.set.options.emit moduleName)) ++
        (planOf d b.set.options.types (view b.set.origin) b.set.options.useCache
          (k.stored? (.of d content b.set.options.emit moduleName))).paths
            (e.compile view (k.slot.activate e b).1.engine path moduleName).1
            (e.diagnose view (k.slot.activate e b).1.engine path).1) := rfl

theorem tracker_workOf {content : String} (k : Desk σ)
    (hc : (view b.set.origin).content path = some content) :
    (k.workOf d e view b path content moduleName).desk.slot.tracker =
      (k.slot.tracker.observeEach d (view b.set.origin)
        (k.lookedAt d e view b path content moduleName)).2 := by
  unfold workOf
  rw [tracker_work]
  change ((k.slot.tracker.version d path content).2.observeEach d _ _).2 = _
  rw [k.slot.tracker.version_snd hc]
  rfl

theorem Way.graph (h : Way d e k job fp asked r) (hr : r.answer = .ok em) :
    r.desk.slot.graph = if em.outcome = .reuse then k.slot.graph
      else k.slot.graph.record job.path em.unit.dependencies := by
  cases h with
  | uncached hc | miss _ hc => cases hr; exact Slot.graph_compile hc
  | recompiled _ _ hc =>
    cases hr
    have hg := Slot.graph_compile hc
    exact hg
  | patched _ _ hc =>
    cases hr
    have hg := Slot.graph_refresh hc
    exact hg
  | reused => cases hr; rfl
  | failed => cases hr

/-- The entry in memory for a fingerprint, once it was looked for. -/
def found? (k : Desk σ) (fp : Fingerprint) : Option Entry :=
  (k.cache.fetch k.disk fp).memory.get? fp.key

theorem stored?_eq (k : Desk σ) (fp : Fingerprint) :
    k.stored? fp = (k.found? fp).map (·.unit) := rfl

theorem found?_eq (k : Desk σ) (fp : Fingerprint) :
    k.found? fp = (k.cache.memory.get? fp.key).or (k.cache.load? k.disk fp) :=
  k.cache.get?_fetch_self k.disk fp

theorem get?_fetch_of_ne (c : Cache) (disk : Disk) {key : String} (h : key ≠ fp.key) :
    (c.fetch disk fp).memory.get? key = c.memory.get? key := by
  unfold Cache.fetch
  split
  · rfl
  · split
    · rfl
    · exact KeyMap.get?_insert_of_ne _ _ h

theorem Way.memory_of_ne (h : Way d e k job fp asked r) {key : String} (hne : key ≠ fp.key) :
    r.desk.cache.memory.get? key = k.cache.memory.get? key := by
  have hf := get?_fetch_of_ne k.cache k.disk hne
  have saved : ∀ (c : Cache) (u : Artifact),
      (c.save k.disk fp u).1.memory.get? key = c.memory.get? key :=
    fun c u => KeyMap.get?_insert_of_ne _ _ hne
  cases h with
  | uncached => exact saved k.cache _
  | miss | recompiled | patched => exact (saved (k.cache.fetch k.disk fp) _).trans hf
  | reused => exact hf
  | failed hc _ =>
    rcases hc with rfl | rfl
    · rfl
    · exact hf

theorem Way.memory_self (h : Way d e k job fp asked r) (hr : r.answer = .ok em) :
    r.desk.cache.memory.get? fp.key =
      if em.outcome = .reuse then k.found? fp else some ⟨fp, em.unit⟩ := by
  cases h with
  | uncached | miss | recompiled | patched => cases hr; exact KeyMap.get?_insert_self _ _ _
  | reused => cases hr; rfl
  | failed => cases hr

/-- The disk after a job: it writes an entry file unless nothing new was made. -/
theorem Way.disk (h : Way d e k job fp asked r) : r.desk.disk = match r.answer with
    | .error _ => k.disk
    | .ok em =>
      if em.outcome = .reuse then k.disk else k.cache.writeEntry k.disk ⟨fp, em.unit⟩ := by
  have hf : ∀ x, (k.cache.fetch k.disk fp).writeEntry k.disk x = k.cache.writeEntry k.disk x := by
    intro x
    unfold Cache.writeEntry Cache.entryPath?
    rw [Cache.directory_fetch]
  cases h with
  | uncached => rfl
  | miss | recompiled | patched => exact hf _
  | reused | failed => rfl

end Desk

end CompileCache
