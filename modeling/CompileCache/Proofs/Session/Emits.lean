import CompileCache.Proofs.Session.Ways

/-!
# Emits — what an emit returns and what it leaves

* `Desk.Account`: how an emission comes about: compiled, checked again, or returned as it was
  stored.
* **`Desk.account_emit`**: there is an account of every emission.
* `Desk.loaded_emit`: after an emit the compiler is loaded with the build.
* **`Desk.holds_emit`**: an entry that is there after an emit was there before, or is what the emit
  returned.
-/

namespace CompileCache.Desk

variable {σ : Type} (d : Digest) (e : Engine σ)

/-- How an emission comes about, where `S` tells what may have been stored and `L` in which states
the compiler may be. -/
inductive Account (L : σ → WorkingSet → Prop) (S : Artifact → Prop) (view : View) (b : Build)
    (path : String) (moduleName : Option String) (em : Emission) : Prop
  | compiled {s : σ} {out : Output} (hl : L s b.set)
      (ho : (e.compile view s path moduleName).1 = .ok out)
      (hr : em.outcome ≠ .reuse) (hp : em.outcome ≠ .patched) (hpath : em.unit.path = path)
      (hcode : em.unit.code = out.code) (hdiagnostics : em.unit.diagnostics = out.diagnostics)
      (hdependencies : em.unit.dependencies.hashes = out.references.hashes d (view b.set.origin))
  | patched {stored : Artifact} {s : σ} {report : Report} (hs : S stored)
      (ha : stored.actionFor d b.set.options.types (view b.set.origin) = .refreshDiagnostics)
      (hl : L s b.set) (ho : (e.diagnose view s path).1 = .ok report) (hp : em.outcome = .patched)
      (hpath : em.unit.path = stored.path) (hcode : em.unit.code = stored.code)
      (hdiagnostics : em.unit.diagnostics = report.diagnostics)
      (hdependencies :
        em.unit.dependencies.hashes = report.references.hashes d (view b.set.origin))
  | reused {stored : Artifact} (hs : S stored)
      (ha : stored.actionFor d b.set.options.types (view b.set.origin) = .reuse)
      (hr : em.outcome = .reuse) (hu : em.unit = { stored with version := em.unit.version })

variable {d e} {L : σ → WorkingSet → Prop} {S T : Artifact → Prop} {k : Desk σ} {view : View}
  {b : Build} {path content : String} {moduleName : Option String} {em : Emission}

theorem Account.mono (h : Account d e L S view b path moduleName em)
    (hst : ∀ u, S u → T u) : Account d e L T view b path moduleName em := by
  cases h with
  | compiled hl ho hr hp hpath hcode hdiagnostics hdependencies =>
    exact .compiled hl ho hr hp hpath hcode hdiagnostics hdependencies
  | patched hs ha hl ho hp hpath hcode hdiagnostics hdependencies =>
    exact .patched (hst _ hs) ha hl ho hp hpath hcode hdiagnostics hdependencies
  | reused hs ha hr hu => exact .reused (hst _ hs) ha hr hu

/-! ## What is returned -/

theorem loaded_ready (k : Desk σ) (path content : String) (hk : e.Keeps L)
    (hl : k.slot.active = b.registration → L k.slot.engine b.set) :
    L (k.ready d e b path content).slot.engine b.set := by
  unfold ready Slot.activate
  dsimp only
  split
  · next h => exact hl h
  · exact hk.load _ _

theorem exists_of_finish {version : UInt64} {r : Result σ}
    (h : (finish version r).answer = .ok em) :
    ∃ em', r.answer = .ok em' ∧ em.outcome = em'.outcome ∧ em.unit = { em'.unit with version } := by
  unfold finish at h
  split at h
  · next hr => rw [hr] at h; cases h
  · next em' hr =>
    cases h
    exact ⟨em', hr, rfl, rfl⟩

theorem exists_of_emitContent
    (h : (k.emitContent d e view b path content moduleName).answer = .ok em) :
    ∃ em', (k.workOf d e view b path content moduleName).answer = .ok em' ∧
      em.outcome = em'.outcome ∧
      em.unit = { em'.unit with version := (k.slot.tracker.version d path content).1 } := by
  rw [emitContent_eq] at h
  exact exists_of_finish h

theorem account_of_compile {s s' : Slot σ} {u : Artifact} {version v : UInt64}
    {roots : List String} (hl : L s.engine b.set)
    (hc : s.compile d e ⟨view, view b.set.origin, path, v, moduleName, roots⟩ = (.ok u, s'))
    (hr : em.outcome ≠ .reuse) (hp : em.outcome ≠ .patched)
    (hu : em.unit = { u with version }) : Account d e L S view b path moduleName em := by
  obtain ⟨out, ho, rfl, -⟩ := Slot.exists_of_compile hc
  refine .compiled hl ho hr hp ?_ ?_ ?_ ?_ <;> rw [hu]
  exact References.hashes_stamped _ _ _

theorem account_emit (hk : e.Keeps L)
    (hl : k.slot.active = b.registration → L k.slot.engine b.set)
    (hc : (view b.set.origin).content path = some content)
    (h : (k.emit d e view b path moduleName).answer = .ok em) :
    Account d e L (fun u => k.cache.lookup? k.disk (.of d content b.set.options.emit moduleName) =
      some u) view b path moduleName em := by
  rw [emit_eq_of_ok hc h] at h
  obtain ⟨em', hw, ho, hu⟩ := exists_of_emitContent h
  have hready := loaded_ready (d := d) k path content hk hl
  have way := way_workOf (d := d) (e := e) k view b path content moduleName
  generalize k.workOf d e view b path content moduleName = r at way hw
  generalize b.set.options.useCache = asked at way
  cases way with
  | uncached hcomp =>
    cases hw
    exact account_of_compile hready hcomp (by rw [ho]; nofun) (by rw [ho]; nofun) hu
  | miss hs hcomp =>
    cases hw
    exact account_of_compile hready hcomp (by rw [ho]; nofun) (by rw [ho]; nofun) hu
  | @recompiled stored u slot hs ha hcomp =>
    cases hw
    exact account_of_compile (s := (k.ready d e b path content).slot.classified d stored _) hready
      hcomp (by rw [ho]; nofun) (by rw [ho]; nofun) hu
  | @patched stored r slot hs ha href =>
    cases hw
    obtain ⟨report, hrep, rfl, -⟩ := Slot.exists_of_refresh href
    refine .patched hs ha hready hrep ho ?_ ?_ ?_ ?_ <;> rw [hu]
    · rfl
    · rfl
    · rfl
    · exact References.hashes_stamped _ _ _
  | reused hs ha =>
    cases hw
    refine .reused hs ha ho ?_
    rw [hu]
  | failed => cases hw

/-! ## What is left -/

theorem loaded_emit (k : Desk σ) (view : View) (path : String) (moduleName : Option String)
    (hk : e.Keeps L) (hl : k.slot.active = b.registration → L k.slot.engine b.set) :
    (k.emit d e view b path moduleName).desk = k ∨
      L (k.emit d e view b path moduleName).desk.slot.engine b.set := by
  rcases emit_eq_or (d := d) (e := e) k view b path moduleName with h | ⟨content, -, -, h⟩
  · rw [h]; exact .inl rfl
  · rw [h, emitContent_eq]
    dsimp only
    refine .inr ?_
    rw [engine_finish]
    unfold workOf
    rw [engine_work]
    exact hk.replay (loaded_ready k path content hk hl) (isWork_work _ _ _ _)

theorem Way.holds {job : Job} {fp : Fingerprint} {asked : Bool} {r : Result σ} {x : Entry}
    (h : Way d e k job fp asked r) (hx : r.desk.cache.Holds r.desk.disk x) :
    k.cache.Holds k.disk x ∨
      ∃ em, r.answer = .ok em ∧ em.outcome ≠ .reuse ∧ x = ⟨fp, em.unit⟩ := by
  have stored : ∀ {em : Emission}, em.outcome ≠ .reuse →
      (((k.cache.fetch k.disk fp).save k.disk fp em.unit).1.Holds
        ((k.cache.fetch k.disk fp).save k.disk fp em.unit).2 x) →
      k.cache.Holds k.disk x ∨ ∃ em', (Except.ok em : Except BuildError Emission) = .ok em' ∧
        em'.outcome ≠ .reuse ∧ x = ⟨fp, em'.unit⟩ := by
    intro em ho hx
    rcases Cache.holds_save hx with hx | hx
    · exact .inl (Cache.holds_fetch hx)
    · exact .inr ⟨em, rfl, ho, hx⟩
  cases h with
  | @uncached u slot hc =>
    rcases Cache.holds_save hx with hx | hx
    · exact .inl hx
    · exact .inr ⟨_, rfl, nofun, hx⟩
  | miss hs hc => exact stored nofun hx
  | recompiled hs ha hc => exact stored nofun hx
  | patched hs ha hr => exact stored nofun hx
  | reused hs ha => exact .inl (Cache.holds_fetch hx)
  | failed hc _ =>
    rcases hc with rfl | rfl
    · exact .inl hx
    · exact .inl (Cache.holds_fetch hx)

theorem Way.wellKeyed {job : Job} {fp : Fingerprint} {asked : Bool} {r : Result σ}
    (h : Way d e k job fp asked r) (hk : k.cache.WellKeyed) : r.desk.cache.WellKeyed := by
  have hf := hk.fetch k.disk fp
  cases h with
  | uncached => exact hk.save k.disk fp _
  | miss => exact hf.save k.disk fp _
  | recompiled => exact hf.save k.disk fp _
  | patched => exact hf.save k.disk fp _
  | reused => exact hf
  | failed hc _ =>
    rcases hc with rfl | rfl
    · exact hk
    · exact hf

theorem wellKeyed_emit (hk : k.cache.WellKeyed) :
    (k.emit d e view b path moduleName).desk.cache.WellKeyed := by
  rcases emit_eq_or (d := d) (e := e) k view b path moduleName with h | ⟨content, -, -, h⟩
  · rw [h]; exact hk
  · rw [h, cache_emitContent]
    exact (way_workOf k view b path content moduleName).wellKeyed hk

theorem holds_emit {x : Entry}
    (hx : (k.emit d e view b path moduleName).desk.cache.Holds
      (k.emit d e view b path moduleName).desk.disk x) :
    k.cache.Holds k.disk x ∨ ∃ content em, (view b.set.origin).content path = some content ∧
      (k.emit d e view b path moduleName).answer = .ok em ∧ em.outcome ≠ .reuse ∧
      x.fingerprint = .of d content b.set.options.emit moduleName ∧
      em.unit = { x.unit with version := em.unit.version } := by
  rcases emit_eq_or (d := d) (e := e) k view b path moduleName with h | ⟨content, -, hc, h⟩
  · rw [h] at hx; exact .inl hx
  rw [h, emitContent_eq] at hx ⊢
  dsimp only at hx ⊢
  have way := way_workOf (d := d) (e := e) k view b path content moduleName
  generalize k.workOf d e view b path content moduleName = r at way hx ⊢
  unfold finish at hx ⊢
  cases ha : r.answer with
  | error err =>
    rw [ha] at hx
    rcases way.holds hx with hx | ⟨em, hem, -⟩
    · exact .inl hx
    · rw [ha] at hem; cases hem
  | ok em =>
    rw [ha] at hx
    dsimp only at hx
    have hx' : r.desk.cache.Holds r.desk.disk x := hx.imp_right Slot.hasEntry_persist
    rcases way.holds hx' with hx | ⟨em', hem, ho, rfl⟩
    · exact .inl hx
    · rw [ha] at hem
      cases hem
      exact .inr ⟨content, _, hc, rfl, ho, rfl, rfl⟩

end CompileCache.Desk
