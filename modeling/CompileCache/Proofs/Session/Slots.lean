import CompileCache.Proofs.Disk.Leaves
import CompileCache.Proofs.Disk.Paths
import CompileCache.Proofs.Tracker.Hashes
import CompileCache.Proofs.Tracker.Observes
import CompileCache.Session.Slot

/-!
# Slots — what jobs do to a slot

* `Engine.after`, `Engine.replay`: the state of a compiler after calls.
* `Engine.Keeps`: what loading gives and no work takes.
* `Slot.station`: what no job changes.
* `Slot.exists_of_compile`, `Slot.exists_of_refresh`: what compiling and checking a job give.
* `Artifact.actionFor`, **`Slot.validate_some`**: what is to be done with a stored artifact, told
  without a tracker.
* **`Slot.engine_validate`**: a compiler gets the calls of the record, and no others.
* `Slot.persist`: saving the versions leaves all else.
-/

namespace CompileCache

variable {σ : Type} (d : Digest) (e : Engine σ)

/-- The state of a compiler after a call. -/
def Engine.after (view : View) (s : σ) : Call → σ
  | .create arch => e.create arch
  | .load _ set => e.load s set
  | .compile _ path moduleName => (e.compile view s path moduleName).2
  | .diagnose _ path => (e.diagnose view s path).2

/-- The state of a compiler after some calls. -/
def Engine.replay (view : View) (s : σ) (calls : List Call) : σ := calls.foldl (e.after view) s

theorem Engine.replay_append (view : View) (s : σ) (l l' : List Call) :
    e.replay view s (l ++ l') = e.replay view (e.replay view s l) l' := List.foldl_append

/-- Whether a call asks for a result. -/
def Call.isWork : Call → Bool
  | .compile .. | .diagnose .. => true
  | _ => false

/-- A property of a compiler and a working set that loading gives and that no work takes. -/
structure Engine.Keeps (L : σ → WorkingSet → Prop) : Prop where
  load : ∀ s set, L (e.load s set) set
  compile : ∀ {s set}, L s set → ∀ view path moduleName, L (e.compile view s path moduleName).2 set
  diagnose : ∀ {s set}, L s set → ∀ view path, L (e.diagnose view s path).2 set

theorem Engine.keeps_true : e.Keeps fun _ _ => True :=
  ⟨fun _ _ => trivial, fun _ _ _ _ => trivial, fun _ _ _ => trivial⟩

variable {e} in
theorem Engine.Keeps.replay {L : σ → WorkingSet → Prop} (hk : e.Keeps L) {view : View} {s : σ}
    {set : WorkingSet} (h : L s set) {calls : List Call} (hc : ∀ c ∈ calls, c.isWork = true) :
    L (e.replay view s calls) set := by
  induction calls generalizing s with
  | nil => exact h
  | cons c calls ih =>
    refine ih (s := e.after view s c) ?_ fun c' hc' => hc c' (List.mem_cons_of_mem c hc')
    have hw := hc c List.mem_cons_self
    cases c with
    | create arch => cases hw
    | load arch set' => cases hw
    | compile arch path moduleName => exact hk.compile h view path moduleName
    | diagnose arch path => exact hk.diagnose h view path

/-- What is to be done with a stored artifact. -/
def Artifact.actionFor (u : Artifact) (roots : List String) (s : Source) : Action :=
  (u.dependencies.staleness d roots s).decide u

namespace Slot

/-- What no job changes. -/
def station (s : Slot σ) : String × Option String × Nat × Nat :=
  (s.arch, s.tableFile, s.active, s.issued)

variable {d e} {s s' : Slot σ} {job : Job}

/-! ## Compiling and checking -/

theorem station_compile (s : Slot σ) (job : Job) : (s.compile d e job).2.station = s.station := by
  unfold compile
  dsimp only
  split <;> rfl

theorem engine_compile (s : Slot σ) (job : Job) :
    (s.compile d e job).2.engine = e.after job.view s.engine (s.compileCall job) := by
  unfold compile
  dsimp only
  split <;> rfl

theorem station_refresh (s : Slot σ) (job : Job) : (s.refresh d e job).2.station = s.station := by
  unfold refresh
  dsimp only
  split <;> rfl

theorem engine_refresh (s : Slot σ) (job : Job) (arch : String) :
    (s.refresh d e job).2.engine = e.after job.view s.engine (.diagnose arch job.path) := by
  unfold refresh
  dsimp only
  split <;> rfl

theorem exists_of_compile {u : Artifact} (h : s.compile d e job = (.ok u, s')) :
    ∃ out, (e.compile job.view s.engine job.path job.moduleName).1 = .ok out ∧
      u = ⟨job.path, job.version, out.code, out.diagnostics,
        (out.references.stamped d s.tracker job.source).1⟩ ∧
      s'.tracker = (out.references.stamped d s.tracker job.source).2 := by
  unfold compile recordReferences at h
  dsimp only at h
  split at h
  · cases h
  · next out ho =>
    cases h
    exact ⟨out, ho, rfl, rfl⟩

theorem exists_of_refresh {r : Diagnostics × Dependencies}
    (h : s.refresh d e job = (.ok r, s')) :
    ∃ report, (e.diagnose job.view s.engine job.path).1 = .ok report ∧
      r = (report.diagnostics, (report.references.stamped d s.tracker job.source).1) ∧
      s'.tracker = (report.references.stamped d s.tracker job.source).2 := by
  unfold refresh recordReferences at h
  dsimp only at h
  split at h
  · cases h
  · next report hr =>
    cases h
    exact ⟨report, hr, rfl, rfl⟩

theorem error_of_compile {err : EngineError} (h : s.compile d e job = (.error err, s')) :
    (e.compile job.view s.engine job.path job.moduleName).1 = .error err := by
  unfold compile recordReferences at h
  dsimp only at h
  split at h
  · next ho => cases h; exact ho
  · cases h

theorem error_of_refresh {err : EngineError} (h : s.refresh d e job = (.error err, s')) :
    (e.diagnose job.view s.engine job.path).1 = .error err := by
  unfold refresh recordReferences at h
  dsimp only at h
  split at h
  · next hr => cases h; exact hr
  · cases h

theorem observes_compile (s : Slot σ) (job : Job) :
    s.tracker.Observes d job.source (s.compile d e job).2.tracker := by
  unfold compile recordReferences
  dsimp only
  split
  · exact .refl _
  · exact References.observes_stamped _ _ _

theorem observes_refresh (s : Slot σ) (job : Job) :
    s.tracker.Observes d job.source (s.refresh d e job).2.tracker := by
  unfold refresh recordReferences
  dsimp only
  split
  · exact .refl _
  · exact References.observes_stamped _ _ _

/-! ## Validating -/

variable (d) in
/-- A slot after it classified an artifact for a job. -/
def classified (s : Slot σ) (u : Artifact) (job : Job) : Slot σ :=
  { s with tracker := (classify d u.dependencies job.roots s.tracker job.source).2 }

/-- **What is to become of a stored artifact**, told without a tracker. -/
theorem validate_some (s : Slot σ) (job : Job) (u : Artifact) :
    s.validate d e job (some u) =
      match u.actionFor d job.roots job.source with
      | .reuse => (.ok (.reuse, .reuse), s.classified d u job, [])
      | .recompile => (s.classified d u job).replace d e job .recompiled
      | .refreshDiagnostics =>
        (((s.classified d u job).refresh d e job).1.map fun r => (.patched, .patch r.1 r.2),
          ((s.classified d u job).refresh d e job).2, [.diagnose s.arch job.path]) := by
  have h := classify_fst (d := d) u.dependencies job.roots s.tracker job.source
  unfold validate Artifact.actionFor classified
  exact h ▸ rfl

theorem station_replace (s : Slot σ) (job : Job) (o : Outcome) :
    (s.replace d e job o).2.1.station = s.station := station_compile s job

theorem station_validate (s : Slot σ) (job : Job) (stored : Option Artifact) :
    (s.validate d e job stored).2.1.station = s.station := by
  cases stored with
  | none => exact station_replace s job .miss
  | some u =>
    rw [validate_some]
    split
    · rfl
    · exact station_replace (s.classified d u job) job .recompiled
    · exact station_refresh (s.classified d u job) job

theorem engine_replace (s : Slot σ) (job : Job) (o : Outcome) :
    (s.replace d e job o).2.1.engine = e.replay job.view s.engine (s.replace d e job o).2.2 :=
  engine_compile s job

/-- **A compiler gets the calls of the record, and no others.** -/
theorem engine_validate (s : Slot σ) (job : Job) (stored : Option Artifact) :
    (s.validate d e job stored).2.1.engine =
      e.replay job.view s.engine (s.validate d e job stored).2.2 := by
  cases stored with
  | none => exact engine_replace s job .miss
  | some u =>
    rw [validate_some]
    split
    · rfl
    · exact engine_replace (s.classified d u job) job .recompiled
    · exact engine_refresh (s.classified d u job) job s.arch

theorem isWork_validate (s : Slot σ) (job : Job) (stored : Option Artifact) :
    ∀ c ∈ (s.validate d e job stored).2.2, c.isWork = true := by
  cases stored with
  | none => simp [validate, replace, compileCall, Call.isWork]
  | some u =>
    rw [validate_some]
    split <;> simp [replace, compileCall, Call.isWork]

theorem observes_classified (s : Slot σ) (u : Artifact) (job : Job) :
    s.tracker.Observes d job.source (s.classified d u job).tracker := observes_classify _ _ _ _

theorem observes_validate (s : Slot σ) (job : Job) (stored : Option Artifact) :
    s.tracker.Observes d job.source (s.validate d e job stored).2.1.tracker := by
  cases stored with
  | none => exact observes_compile s job
  | some u =>
    have hu := observes_classified (d := d) s u job
    rw [validate_some]
    split
    · exact hu
    · exact hu.trans (observes_compile (e := e) (s.classified d u job) job)
    · exact hu.trans (observes_refresh (e := e) (s.classified d u job) job)

/-! ## Loading -/

theorem engine_activate (s : Slot σ) (b : Build) (view : View) :
    (s.activate e b).1.engine = e.replay view s.engine (s.activate e b).2 := by
  unfold activate
  split <;> rfl

/-! ## Saving the versions -/

theorem station_persist (s : Slot σ) (disk : Disk) : (s.persist disk).1.station = s.station := by
  unfold persist station
  split
  · rfl
  · split <;> rfl

theorem engine_persist (s : Slot σ) (disk : Disk) : (s.persist disk).1.engine = s.engine := by
  unfold persist
  split
  · rfl
  · split <;> rfl

theorem current_persist (s : Slot σ) (disk : Disk) (path : String) :
    (s.persist disk).1.tracker.current path = s.tracker.current path := by
  unfold persist Tracker.save
  split
  · rfl
  · split
    · dsimp only
      split <;> rfl
    · rfl

theorem persist_snd (s : Slot σ) (disk : Disk) : (s.persist disk).2 = disk ∨
    ∃ file ∈ s.tableFile, ∃ text, (s.persist disk).2 = (disk.writeUnder file (.ofText text)).1 := by
  unfold persist Tracker.save
  split
  · exact .inl rfl
  · next file hf =>
    split
    · refine .inr ⟨file, hf, s.tracker.text, ?_⟩
      dsimp only
      split <;> next h => rw [h]
    · exact .inl rfl

theorem hasEntry_persist {s : Slot σ} {disk : Disk} {x : Entry}
    (h : (s.persist disk).2.HasEntry x) : disk.HasEntry x := by
  rcases s.persist_snd disk with hp | ⟨file, -, text, hp⟩
  · rw [← hp]; exact h
  · rw [hp] at h
    rcases Disk.hasEntry_writeUnder h with h | h
    · exact h
    · cases h

end Slot

end CompileCache
