import CompileCache.Proofs.Cache.Store
import CompileCache.Proofs.Session.Slots
import CompileCache.Session.Emit

/-!
# Ways — how an emit comes to its end

* `Desk.Way`: the ways of a job, each with what it answers, leaves and calls.
* **`Desk.way_cached`**, `Desk.way_uncached`: every job goes one of the ways.
* `Desk.ready`, `Desk.jobOf`, `Desk.emitContent_eq`: the job that an emit makes.
* **`Desk.engine_emit`**, `Desk.station_emit`: what an emit does to the slot.
-/

namespace CompileCache.Desk

variable {σ : Type} (d : Digest) (e : Engine σ)

/-- The end of a job that stores an artifact in a cache. -/
def storing (k : Desk σ) (cache : Cache) (fp : Fingerprint) (em : Emission) (slot : Slot σ)
    (calls : List Call) : Result σ :=
  ⟨.ok em, ⟨slot, (cache.save k.disk fp em.unit).1, (cache.save k.disk fp em.unit).2⟩, calls⟩

/-- The ways of a job, by whether the cache is asked: what each answers, leaves and calls. -/
inductive Way (k : Desk σ) (job : Job) (fp : Fingerprint) : Bool → Result σ → Prop
  | uncached {u : Artifact} {slot : Slot σ} (hc : k.slot.compile d e job = (.ok u, slot)) :
      Way k job fp false
        (k.storing k.cache fp ⟨u, .uncached⟩ slot [k.slot.compileCall job])
  | miss {u : Artifact} {slot : Slot σ} (hs : k.cache.lookup? k.disk fp = none)
      (hc : k.slot.compile d e job = (.ok u, slot)) :
      Way k job fp true
        (k.storing (k.cache.fetch k.disk fp) fp ⟨u, .miss⟩ slot [k.slot.compileCall job])
  | recompiled {stored u : Artifact} {slot : Slot σ}
      (hs : k.cache.lookup? k.disk fp = some stored)
      (ha : stored.actionFor d job.roots job.source = .recompile)
      (hc : (k.slot.classified d stored job).compile d e job = (.ok u, slot)) :
      Way k job fp true
        (k.storing (k.cache.fetch k.disk fp) fp ⟨u, .recompiled⟩ slot [k.slot.compileCall job])
  | patched {stored : Artifact} {r : Diagnostics × Dependencies} {slot : Slot σ}
      (hs : k.cache.lookup? k.disk fp = some stored)
      (ha : stored.actionFor d job.roots job.source = .refreshDiagnostics)
      (hr : (k.slot.classified d stored job).refresh d e job = (.ok r, slot)) :
      Way k job fp true
        (k.storing (k.cache.fetch k.disk fp) fp ⟨stored.patched r.1 r.2, .patched⟩ slot
          [.diagnose k.slot.arch job.path])
  | reused {stored : Artifact} (hs : k.cache.lookup? k.disk fp = some stored)
      (ha : stored.actionFor d job.roots job.source = .reuse) :
      Way k job fp true
        ⟨.ok ⟨stored, .reuse⟩, ⟨k.slot.classified d stored job, k.cache.fetch k.disk fp, k.disk⟩,
          []⟩
  /-- The compiler refuses. -/
  | failed {asked : Bool} {err : EngineError} {slot : Slot σ} {cache : Cache} {calls : List Call}
      (hc : cache = k.cache ∨ cache = k.cache.fetch k.disk fp)
      (he : (e.compile job.view k.slot.engine job.path job.moduleName).1 = .error err ∨
        (e.diagnose job.view k.slot.engine job.path).1 = .error err) :
      Way k job fp asked ⟨.error (.engine err), ⟨slot, cache, k.disk⟩, calls⟩

variable {d e} {k : Desk σ} {job : Job} {fp : Fingerprint}

theorem way_uncached (k : Desk σ) (job : Job) (fp : Fingerprint) :
    Way d e k job fp false (k.uncached d e job fp) := by
  unfold uncached
  dsimp only
  split
  · next hc => exact .failed (.inl rfl) (.inl (Slot.error_of_compile hc))
  · next hc => exact .uncached hc

/-- **Every job goes one of the ways.** -/
theorem way_cached (k : Desk σ) (job : Job) (fp : Fingerprint) :
    Way d e k job fp true (k.cached d e job fp) := by
  unfold cached
  dsimp only
  cases hs : (k.cache.fetch k.disk fp).held? fp with
  | none =>
    unfold Slot.validate Slot.replace
    cases hc : k.slot.compile d e job with
    | mk answer slot =>
      cases answer with
      | error err => exact .failed (.inr rfl) (.inl (Slot.error_of_compile hc))
      | ok u => exact .miss hs hc
  | some stored =>
    rw [Slot.validate_some]
    cases ha : stored.actionFor d job.roots job.source with
    | reuse =>
      dsimp only
      unfold Cache.settle
      rw [hs]
      exact .reused hs ha
    | recompile =>
      unfold Slot.replace
      cases hc : (k.slot.classified d stored job).compile d e job with
      | mk answer slot =>
        cases answer with
        | error err =>
          have hf := Slot.error_of_compile hc
          exact .failed (.inr rfl) (.inl hf)
        | ok u => exact .recompiled hs ha hc
    | refreshDiagnostics =>
      cases hr : (k.slot.classified d stored job).refresh d e job with
      | mk answer slot =>
        cases answer with
        | error err =>
          have hf := Slot.error_of_refresh hr
          exact .failed (.inr rfl) (.inr hf)
        | ok r =>
          dsimp only [Except.map]
          unfold Cache.settle
          rw [hs]
          exact .patched hs ha hr

/-! ## The job of an emit -/

section Job

variable (d e)

/-- Does a job, by whether the cache is asked. -/
def work (k : Desk σ) (job : Job) (fp : Fingerprint) (asked : Bool) : Result σ :=
  if asked then k.cached d e job fp else k.uncached d e job fp

/-- The desk when the build is loaded and the content has its version. -/
def ready (k : Desk σ) (b : Build) (path content : String) : Desk σ :=
  { k with
    slot :=
      { (k.slot.activate e b).1 with tracker := (k.slot.tracker.version d path content).2 } }

/-- The job that an emit makes. -/
def jobOf (k : Desk σ) (view : View) (b : Build) (path content : String)
    (moduleName : Option String) : Job :=
  ⟨view, view b.set.origin, path, (k.slot.tracker.version d path content).1, moduleName,
    b.set.options.types⟩

/-- What an emit does with a content, before the versions are saved. -/
def workOf (k : Desk σ) (view : View) (b : Build) (path content : String)
    (moduleName : Option String) : Result σ :=
  (k.ready d e b path content).work d e (k.jobOf d view b path content moduleName)
    (.of d content b.set.options.emit moduleName) b.set.options.useCache

end Job

theorem graph_ready (k : Desk σ) (b : Build) (path content : String) :
    (k.ready d e b path content).slot.graph = k.slot.graph := by
  unfold ready Slot.activate
  dsimp only
  split <;> rfl

theorem way_work (k : Desk σ) (job : Job) (fp : Fingerprint) (asked : Bool) :
    Way d e k job fp asked (k.work d e job fp asked) := by
  cases asked with
  | false => exact way_uncached k job fp
  | true => exact way_cached k job fp

theorem way_workOf (k : Desk σ) (view : View) (b : Build) (path content : String)
    (moduleName : Option String) : Way d e (k.ready d e b path content)
      (k.jobOf d view b path content moduleName) (.of d content b.set.options.emit moduleName)
      b.set.options.useCache (k.workOf d e view b path content moduleName) :=
  way_work _ _ _ _

theorem tracker_activate (s : Slot σ) (b : Build) : (s.activate e b).1.tracker = s.tracker := by
  unfold Slot.activate
  split <;> rfl

variable {view : View} {b : Build} {path content : String} {moduleName : Option String}

theorem emitContent_eq (k : Desk σ) (view : View) (b : Build) (path content : String)
    (moduleName : Option String) :
    k.emitContent d e view b path content moduleName =
      { finish (k.slot.tracker.version d path content).1
          (k.workOf d e view b path content moduleName) with
        calls := (k.slot.activate e b).2 ++
          (finish (k.slot.tracker.version d path content).1
            (k.workOf d e view b path content moduleName)).calls } := by
  unfold workOf ready jobOf
  rw [← tracker_activate (e := e) k.slot b]
  rfl

theorem calls_finish (version : UInt64) (r : Result σ) : (finish version r).calls = r.calls := by
  unfold finish
  split <;> rfl

theorem engine_finish (version : UInt64) (r : Result σ) :
    (finish version r).desk.slot.engine = r.desk.slot.engine := by
  unfold finish
  split
  · rfl
  · exact Slot.engine_persist _ _

theorem station_finish (version : UInt64) (r : Result σ) :
    (finish version r).desk.slot.station = r.desk.slot.station := by
  unfold finish
  split
  · rfl
  · exact Slot.station_persist _ _

theorem cache_finish (version : UInt64) (r : Result σ) :
    (finish version r).desk.cache = r.desk.cache := by
  unfold finish
  split <;> rfl

theorem cache_emitContent (k : Desk σ) (view : View) (b : Build) (path content : String)
    (moduleName : Option String) :
    (k.emitContent d e view b path content moduleName).desk.cache =
      (k.workOf d e view b path content moduleName).desk.cache := by
  rw [emitContent_eq]
  exact cache_finish _ _

/-! ## The slot -/

theorem slot_cached (k : Desk σ) (job : Job) (fp : Fingerprint) :
    (k.cached d e job fp).desk.slot =
        (k.slot.validate d e job ((k.cache.fetch k.disk fp).held? fp)).2.1 ∧
      (k.cached d e job fp).calls =
        (k.slot.validate d e job ((k.cache.fetch k.disk fp).held? fp)).2.2 := by
  unfold cached
  dsimp only
  split
  · next h => rw [h]; exact ⟨rfl, rfl⟩
  · next h =>
    rw [h]
    dsimp only
    split <;> exact ⟨rfl, rfl⟩

theorem slot_uncached (k : Desk σ) (job : Job) (fp : Fingerprint) :
    (k.uncached d e job fp).desk.slot = (k.slot.compile d e job).2 ∧
      (k.uncached d e job fp).calls = [k.slot.compileCall job] := by
  unfold uncached
  dsimp only
  split <;> next h => rw [h]; exact ⟨rfl, rfl⟩

theorem station_work (k : Desk σ) (job : Job) (fp : Fingerprint) (asked : Bool) :
    (k.work d e job fp asked).desk.slot.station = k.slot.station := by
  cases asked with
  | false =>
    change (k.uncached d e job fp).desk.slot.station = _
    rw [(slot_uncached k job fp).1, Slot.station_compile]
  | true =>
    change (k.cached d e job fp).desk.slot.station = _
    rw [(slot_cached k job fp).1, Slot.station_validate]

theorem engine_work (k : Desk σ) (job : Job) (fp : Fingerprint) (asked : Bool) :
    (k.work d e job fp asked).desk.slot.engine =
      e.replay job.view k.slot.engine (k.work d e job fp asked).calls := by
  cases asked with
  | false =>
    change (k.uncached d e job fp).desk.slot.engine = e.replay _ _ (k.uncached d e job fp).calls
    rw [(slot_uncached k job fp).1, (slot_uncached k job fp).2, Slot.engine_compile]
    rfl
  | true =>
    change (k.cached d e job fp).desk.slot.engine = e.replay _ _ (k.cached d e job fp).calls
    rw [(slot_cached k job fp).1, (slot_cached k job fp).2, Slot.engine_validate]

theorem observes_work (k : Desk σ) (job : Job) (fp : Fingerprint) (asked : Bool) :
    k.slot.tracker.Observes d job.source (k.work d e job fp asked).desk.slot.tracker := by
  cases asked with
  | false =>
    change Tracker.Observes d _ _ (k.uncached d e job fp).desk.slot.tracker
    rw [(slot_uncached k job fp).1]
    exact Slot.observes_compile _ _
  | true =>
    change Tracker.Observes d _ _ (k.cached d e job fp).desk.slot.tracker
    rw [(slot_cached k job fp).1]
    exact Slot.observes_validate _ _ _

theorem isWork_work (k : Desk σ) (job : Job) (fp : Fingerprint) (asked : Bool) :
    ∀ c ∈ (k.work d e job fp asked).calls, c.isWork = true := by
  cases asked with
  | false =>
    change ∀ c ∈ (k.uncached d e job fp).calls, _
    rw [(slot_uncached k job fp).2]
    simp [Slot.compileCall, Call.isWork]
  | true =>
    change ∀ c ∈ (k.cached d e job fp).calls, _
    rw [(slot_cached k job fp).2]
    exact Slot.isWork_validate _ _ _

theorem isWork_workOf (k : Desk σ) (view : View) (b : Build) (path content : String)
    (moduleName : Option String) :
    ∀ c ∈ (k.workOf d e view b path content moduleName).calls, c.isWork = true :=
  isWork_work _ (k.jobOf d view b path content moduleName) _ _

/-! ## Emits -/

theorem emit_eq (hf : b.contains path = true)
    (hc : (view b.set.origin).content path = some content) :
    k.emit d e view b path moduleName = k.emitContent d e view b path content moduleName := by
  unfold emit
  rw [hf, if_neg (by decide), hc]

/-- A path that is not in the build or has no content changes nothing. -/
theorem emit_eq_or (k : Desk σ) (view : View) (b : Build) (path : String)
    (moduleName : Option String) :
    k.emit d e view b path moduleName = ⟨.error (.notFound path), k, []⟩ ∨
      ∃ content, b.contains path = true ∧ (view b.set.origin).content path = some content ∧
        k.emit d e view b path moduleName = k.emitContent d e view b path content moduleName := by
  cases hf : b.contains path with
  | false =>
    refine .inl ?_
    unfold emit
    rw [if_pos hf]
  | true =>
    cases hc : (view b.set.origin).content path with
    | none =>
      refine .inl ?_
      unfold emit
      rw [if_neg (by rw [hf]; decide), hc]
    | some content => exact .inr ⟨content, rfl, rfl, emit_eq hf hc⟩

theorem emit_eq_of_ok {em : Emission} (hc : (view b.set.origin).content path = some content)
    (h : (k.emit d e view b path moduleName).answer = .ok em) :
    k.emit d e view b path moduleName = k.emitContent d e view b path content moduleName := by
  rcases emit_eq_or (d := d) (e := e) k view b path moduleName with he | ⟨content', -, hc', he⟩
  · rw [he] at h
    cases h
  · rw [hc] at hc'
    cases hc'
    exact he

theorem engine_emit (k : Desk σ) (view : View) (b : Build) (path : String)
    (moduleName : Option String) :
    (k.emit d e view b path moduleName).desk.slot.engine =
      e.replay view k.slot.engine (k.emit d e view b path moduleName).calls := by
  rcases emit_eq_or (d := d) (e := e) k view b path moduleName with h | ⟨content, -, -, h⟩
  · rw [h]; rfl
  · rw [h, emitContent_eq]
    dsimp only
    rw [engine_finish, calls_finish, Engine.replay_append, ← Slot.engine_activate]
    exact engine_work _ _ _ _

theorem station_emitContent (k : Desk σ) (view : View) (b : Build) (path content : String)
    (moduleName : Option String) :
    (k.emitContent d e view b path content moduleName).desk.slot.station =
      (k.slot.arch, k.slot.tableFile, b.registration, k.slot.issued) := by
  rw [emitContent_eq]
  dsimp only
  rw [station_finish]
  refine (station_work _ _ _ _).trans ?_
  unfold ready Slot.station Slot.activate
  split
  · next ha => rw [← ha]
  · rfl

theorem station_emit (k : Desk σ) (view : View) (b : Build) (path : String)
    (moduleName : Option String) :
    (k.emit d e view b path moduleName).desk = k ∨
      (k.emit d e view b path moduleName).desk.slot.station =
        (k.slot.arch, k.slot.tableFile, b.registration, k.slot.issued) := by
  rcases emit_eq_or (d := d) (e := e) k view b path moduleName with h | ⟨content, -, -, h⟩
  · rw [h]; exact .inl rfl
  · rw [h]; exact .inr (station_emitContent k view b path content moduleName)

end CompileCache.Desk
