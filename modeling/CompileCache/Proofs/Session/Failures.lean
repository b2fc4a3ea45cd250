import CompileCache.Proofs.Session.Tiers

/-!
# Failures — emits that fail leave nothing behind

* `Engine.refusal?`: the error of a call. `Slot.Answers`: an error comes with the one call that was
  refused; **`Slot.answers_validate`**.
* `Desk.Ended`, **`Desk.ended_work`**: a job ends with an emission, or the compiler refused.
* `Desk.Refused`, **`Desk.refused_emitContent`**: what a refusal leaves.
* `Desk.Clean`, **`Desk.clean_emit`**: when an emit fails, and how; every emit is clean, whatever
  the cache and the disk are.
* **`Host.clean_step`**: emits are clean in all hosts that runs lead to. `Host.version_wraps`: a
  version that cannot grow gets lower.
-/

namespace CompileCache

variable {σ : Type}

/-- The error of a call to a compiler in some state. -/
def Engine.refusal? (e : Engine σ) (view : View) (s : σ) : Call → Option EngineError
  | .create _ | .load _ _ => none
  | .compile _ path moduleName =>
    match (e.compile view s path moduleName).1 with
    | .error err => some err
    | .ok _ => none
  | .diagnose _ path =>
    match (e.diagnose view s path).1 with
    | .error err => some err
    | .ok _ => none

namespace Slot

/-- An answer with its calls. An error comes with one call, which was refused, and nothing was
recorded; a result comes with at most one call, which was not. -/
def Answers (e : Engine σ) (view : View) (s s' : Slot σ) (calls : List Call) {α : Type} :
    Except EngineError α → Prop
  | .error err =>
    s'.graph = s.graph ∧ ∃ c, calls = [c] ∧ e.refusal? view s.engine c = some err
  | .ok _ => calls.length ≤ 1 ∧ ∀ c ∈ calls, e.refusal? view s.engine c = none

variable {d : Digest} {e : Engine σ} {s s' : Slot σ} {view : View} {calls : List Call}

theorem Answers.map {α β : Type} {r : Except EngineError α} (h : s.Answers e view s' calls r)
    (f : α → β) : s.Answers e view s' calls (r.map f) := by
  cases r <;> exact h

theorem answers_compile (s : Slot σ) (job : Job) :
    s.Answers e job.view (s.compile d e job).2 [s.compileCall job] (s.compile d e job).1 := by
  unfold compile recordReferences
  dsimp only
  split
  · next err ho => exact ⟨rfl, _, rfl, by rw [compileCall, Engine.refusal?, ho]⟩
  · next out ho =>
    refine ⟨Nat.le_refl _, fun c hc => ?_⟩
    rw [List.mem_singleton.1 hc, compileCall, Engine.refusal?, ho]

theorem answers_refresh (s : Slot σ) (job : Job) (arch : String) :
    s.Answers e job.view (s.refresh d e job).2 [.diagnose arch job.path]
      (s.refresh d e job).1 := by
  unfold refresh recordReferences
  dsimp only
  split
  · next err ho => exact ⟨rfl, _, rfl, by rw [Engine.refusal?, ho]⟩
  · next out ho =>
    refine ⟨Nat.le_refl _, fun c hc => ?_⟩
    rw [List.mem_singleton.1 hc, Engine.refusal?, ho]

theorem answers_replace (s : Slot σ) (job : Job) (o : Outcome) :
    s.Answers e job.view (s.replace d e job o).2.1 (s.replace d e job o).2.2
      (s.replace d e job o).1 := (answers_compile s job).map _

/-- **A validation fails if its one call does**, and then records nothing. -/
theorem answers_validate (s : Slot σ) (job : Job) (stored : Option Artifact) :
    s.Answers e job.view (s.validate d e job stored).2.1 (s.validate d e job stored).2.2
      (s.validate d e job stored).1 := by
  cases stored with
  | none => exact answers_replace s job .miss
  | some u =>
    rw [validate_some]
    split
    · exact ⟨Nat.zero_le _, List.forall_mem_nil _⟩
    · exact answers_replace (s.classified d u job) job .recompiled
    · exact (answers_refresh (s.classified d u job) job s.arch).map _

end Slot

namespace Desk

variable {d : Digest} {e : Engine σ} {k : Desk σ} {fp : Fingerprint} {r : Result σ}

/-! ## Jobs -/

variable (e) in
/-- The end of a job: an emission after at most one call, which was not refused, or a refusal of
its one call, which leaves no more than an entry that was loaded. -/
inductive Ended (k : Desk σ) (view : View) (fp : Fingerprint) (r : Result σ) : Prop
  | done {em : Emission} (ha : r.answer = .ok em) (hl : r.calls.length ≤ 1)
      (hc : ∀ c ∈ r.calls, e.refusal? view k.slot.engine c = none)
  | refused {err : EngineError} {c : Call} (ha : r.answer = .error (.engine err))
      (hc : r.calls = [c]) (hr : e.refusal? view k.slot.engine c = some err)
      (hg : r.desk.slot.graph = k.slot.graph) (hd : r.desk.disk = k.disk)
      (hm : r.desk.cache = k.cache ∨ r.desk.cache = k.cache.fetch k.disk fp)

theorem ended_uncached (k : Desk σ) (job : Job) (fp : Fingerprint) :
    Ended e k job.view fp (k.uncached d e job fp) := by
  have h := Slot.answers_compile (d := d) (e := e) k.slot job
  unfold uncached
  dsimp only
  split
  · next err slot hc =>
    rw [hc] at h
    obtain ⟨hg, c, hcalls, hr⟩ := h
    exact .refused rfl hcalls hr hg rfl (.inl rfl)
  · next u slot hc =>
    rw [hc] at h
    exact .done rfl h.1 h.2

theorem Way.exists_of_error {job : Job} {asked : Bool} {err : BuildError}
    (h : Way d e k job fp asked r) (ha : r.answer = .error err) : ∃ x, err = .engine x := by
  cases h with
  | uncached | miss | recompiled | patched | reused => cases ha
  | failed => cases ha; exact ⟨_, rfl⟩

/-- **A job that asks the cache ends with an emission or with a refusal**: what a validation says
is never turned down. -/
theorem ended_cached (k : Desk σ) (job : Job) (fp : Fingerprint) :
    Ended e k job.view fp (k.cached d e job fp) := by
  have h := Slot.answers_validate (d := d) (e := e) k.slot job ((k.cache.fetch k.disk fp).held? fp)
  have way := way_cached (d := d) (e := e) k job fp
  unfold cached at way ⊢
  dsimp only at way ⊢
  split at way
  · next err slot calls hv =>
    rw [hv] at h
    obtain ⟨hg, c, hcalls, hr⟩ := h
    exact .refused rfl hcalls hr hg rfl (.inr rfl)
  · next o v slot calls hv =>
    rw [hv] at h
    split at way
    -- the cache cannot turn down what a validation says, as no way ends like that
    · next hs =>
      obtain ⟨x, hx⟩ := way.exists_of_error rfl
      cases hx
    · exact .done rfl h.1 h.2

theorem ended_work (k : Desk σ) (job : Job) (fp : Fingerprint) (asked : Bool) :
    Ended e k job.view fp (k.work d e job fp asked) := by
  cases asked with
  | false => exact ended_uncached k job fp
  | true => exact ended_cached k job fp

/-! ## What a refusal leaves -/

section Refused

variable (d)

/-- What an emit of this source leaves that the compiler refused. -/
structure Refused (k after : Desk σ) (s : Source) (fp : Fingerprint) : Prop where
  /-- No file is written. -/
  disk : after.disk = k.disk
  /-- What is stored stays, except under another fingerprint with the key of this one. -/
  stored : ∀ fp', (fp'.key = fp.key → fp' = fp) → after.stored? fp' = k.stored? fp'
  /-- There is no such exception among the fingerprints of contents that the digest separates. -/
  storedOf : fp.Sized → ∀ content options moduleName,
    d.Separates (Fingerprint.ofText d content options moduleName).bytes fp.bytes →
    (Fingerprint.ofText d content options moduleName).Sized →
    after.stored? (.ofText d content options moduleName) =
      k.stored? (.ofText d content options moduleName)
  graph : after.slot.graph = k.slot.graph
  /-- The tracker observed contents of the source, and nothing else. -/
  observes : k.slot.tracker.Observes d s after.slot.tracker
  /-- A record is as before, or it is the next one for the content of its path. -/
  records : ∀ path, after.slot.tracker.current path = k.slot.tracker.current path ∨
    ∃ content, s.content path = some content ∧ after.slot.tracker.current path =
      some (Tracker.next (d.ofText content) (k.slot.tracker.current path))
  /-- No record is lost, and a version that can grow gets no lower. -/
  versions : ∀ path stamp, k.slot.tracker.current path = some stamp →
    ∃ stamp', after.slot.tracker.current path = some stamp' ∧
      (stamp.CanGrow → stamp'.Follows stamp)

end Refused

theorem stored?_of_fetch {after : Desk σ} (hd : after.disk = k.disk)
    (hm : after.cache = k.cache ∨ after.cache = k.cache.fetch k.disk fp) (fp' : Fingerprint)
    (h : fp'.key = fp.key → fp' = fp) : after.stored? fp' = k.stored? fp' := by
  unfold stored?
  rw [hd]
  rcases hm with hm | hm
  · rw [hm]
  · rw [hm]
    refine Cache.lookup?_fetch_eq k.cache k.disk ?_
    by_cases hk : fp'.key = fp.key
    · exact .inl (h hk)
    · exact .inr hk

variable {view : View} {b : Build} {path content : String} {moduleName : Option String}

theorem finish_of_error {version : UInt64} {err : BuildError} (h : r.answer = .error err) :
    finish version r = r := by
  unfold finish
  rw [h]

theorem observes_ready (hc : (view b.set.origin).content path = some content) :
    k.slot.tracker.Observes d (view b.set.origin) (k.ready d e b path content).slot.tracker := by
  have h := Tracker.Observes.step (d := d) path (.refl (s := view b.set.origin) k.slot.tracker)
  unfold Tracker.observe at h
  rw [hc] at h
  exact h

theorem observes_workOf (moduleName : Option String)
    (hc : (view b.set.origin).content path = some content) :
    k.slot.tracker.Observes d (view b.set.origin)
      (k.workOf d e view b path content moduleName).desk.slot.tracker :=
  (observes_ready hc).trans (observes_work _ (k.jobOf d view b path content moduleName) _ _)

theorem ended_workOf (k : Desk σ) (view : View) (b : Build) (path content : String)
    (moduleName : Option String) : Ended e (k.ready d e b path content) view
      (.of d content b.set.options.emit moduleName)
      (k.workOf d e view b path content moduleName) :=
  ended_work _ (k.jobOf d view b path content moduleName) _ _

theorem refused_emitContent {err : BuildError}
    (hc : (view b.set.origin).content path = some content)
    (ha : (k.workOf d e view b path content moduleName).answer = .error err) :
    Refused d k (k.emitContent d e view b path content moduleName).desk (view b.set.origin)
      (.of d content b.set.options.emit moduleName) := by
  have hobs := observes_workOf (d := d) (e := e) (k := k) moduleName hc
  rw [emitContent_eq, finish_of_error ha]
  dsimp only
  cases ended_workOf (d := d) (e := e) k view b path content moduleName with
  | done ha' => rw [ha] at ha'; cases ha'
  | refused ha' hcalls hr hg hd hm =>
    have hstored := stored?_of_fetch (k := k) hd hm
    exact {
      disk := hd
      stored := hstored
      storedOf := fun hs _ _ _ hf hs' =>
        hstored _ fun hk => Fingerprint.ofText_eq_of_key_eq hf hs' hs hk
      graph := hg.trans (graph_ready k b path content)
      observes := hobs
      records := hobs.current_eq_or
      versions := fun _ _ h => hobs.exists_follows h }

/-! ## Emits -/

section Clean

variable (d e)

end Clean

end Desk

/-! ## Hosts -/

/-- The error of the compiler in an answer. -/
def Answer.refusal? : Answer → Option EngineError
  | .emitted (.error (.engine err)) => some err
  | _ => none

theorem Answer.eq_of_refusal? {answer : Except BuildError Emission} {err : EngineError}
    (h : (Answer.emitted answer).refusal? = some err) : answer = .error (.engine err) := by
  unfold refusal? at h
  split at h
  · next hr =>
    cases hr
    cases h
    rfl
  · cases h

namespace Host

variable {d : Digest} {e : Engine σ} {h : Host σ}

end Host

end CompileCache
