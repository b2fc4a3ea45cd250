import CompileCache.Proofs.Run.Log
import CompileCache.Proofs.Session.Tiers

/-!
# Progress — when an emit answers

* `Engine.Accepts`: loaded compilers make something of a path.
* **`Host.exists_event`**: an emit of a path with content that compilers accept answers.
* **`Host.event_again`**: what an emit answered is answered again, under whatever path and by
  whatever build, as long as nothing that it rests on changed.
-/

namespace CompileCache

variable {σ : Type} {d : Digest} {e : Engine σ} {L : σ → WorkingSet → Prop}

/-- Loaded compilers make something of a path. -/
structure Engine.Accepts (e : Engine σ) (L : σ → WorkingSet → Prop) (view : View)
    (set : WorkingSet) (path : String) (moduleName : Option String) : Prop where
  compile : ∀ s, L s set → ∃ out, (e.compile view s path moduleName).1 = .ok out
  diagnose : ∀ s, L s set → ∃ report, (e.diagnose view s path).1 = .ok report

namespace Desk

variable {k : Desk σ} {view : View} {b : Build} {path content : String} {moduleName : Option String}
  {em : Emission} {u : Artifact}

theorem answer_finish {version : UInt64} {r : Result σ} (h : r.answer = .ok em) :
    (finish version r).answer = .ok { em with unit := { em.unit with version } } := by
  unfold finish
  rw [h]

theorem exists_answer (hk : e.Keeps L) (hl : k.slot.active = b.registration → L k.slot.engine b.set)
    (hp : b.contains path = true) (hc : (view b.set.origin).content path = some content)
    (ha : e.Accepts L view b.set path moduleName) :
    ∃ em, (k.emit d e view b path moduleName).answer = .ok em := by
  rw [emit_eq hp hc, emitContent_eq]
  dsimp only
  have way := way_workOf (d := d) (e := e) k view b path content moduleName
  have hready := loaded_ready (d := d) k path content hk hl
  cases hr : (k.workOf d e view b path content moduleName).answer with
  | ok em => exact ⟨_, answer_finish hr⟩
  | error err =>
    exfalso
    generalize k.workOf d e view b path content moduleName = r at way hr
    generalize b.set.options.useCache = asked at way
    cases way with
    | failed _ he =>
      rcases he with he | he
      · obtain ⟨out, ho⟩ := ha.compile _ hready
        exact absurd (ho.symm.trans he) nofun
      · obtain ⟨report, ho⟩ := ha.diagnose _ hready
        exact absurd (ho.symm.trans he) nofun
    | _ => cases hr

theorem exists_lookup?_emit (hc : (view b.set.origin).content path = some content)
    (h : (k.emit d e view b path moduleName).answer = .ok em) (disk : Disk) :
    ∃ u, (k.emit d e view b path moduleName).desk.cache.lookup? disk
        (.of d content b.set.options.emit moduleName) = some u ∧
      em.unit = { u with version := em.unit.version } := by
  have he := emit_eq_of_ok hc h
  rw [he] at h ⊢
  obtain ⟨em', hw, -, hu⟩ := exists_of_emitContent h
  exact ⟨em'.unit, lookup?_emitContent hw disk, by rw [hu]⟩

theorem answer_cached {job : Job} {fp : Fingerprint} (hs : k.cache.lookup? k.disk fp = some u)
    (ha : u.actionFor d job.roots job.source = .reuse) :
    (k.cached d e job fp).answer = .ok ⟨u, .reuse⟩ := by
  unfold Cache.lookup? at hs
  unfold cached
  dsimp only
  rw [hs, Slot.validate_some, ha]
  dsimp only
  unfold Cache.settle
  rw [hs]

theorem answer_of_lookup? (k : Desk σ) (view : View) (hp : b.contains path = true)
    (hc : (view b.set.origin).content path = some content) (huse : b.set.options.useCache = true)
    (hs : k.cache.lookup? k.disk (.of d content b.set.options.emit moduleName) = some u)
    (ha : u.actionFor d b.set.options.types (view b.set.origin) = .reuse) :
    (k.emit d e view b path moduleName).answer =
      .ok ⟨{ u with version := (k.slot.tracker.version d path content).1 }, .reuse⟩ := by
  rw [emit_eq hp hc, emitContent_eq]
  dsimp only
  have hw : (k.workOf d e view b path content moduleName).answer = .ok ⟨u, .reuse⟩ := by
    unfold workOf work
    rw [huse, if_pos rfl]
    exact answer_cached hs ha
  exact answer_finish hw

end Desk

/-! ## Hosts -/

namespace Host

variable {h h' : Host σ} {name name' path content : String} {moduleName : Option String}
  {i : Nat} {b b' : Build} {em : Emission}

theorem event?_emit {s : Session σ} {slot : Slot σ} (hb : h.builds.get? name = some (i, b))
    (hs : h.sessions[i]? = some s) (hslot : s.slots[b.slot]? = some slot) (path : String)
    (moduleName : Option String) :
    h.event? d e (.emit name path moduleName) =
      (Desk.emit d e ⟨slot, s.cache, h.world.disk⟩ (Origin.source h.world) b path
        moduleName).answer.toOption.map fun em => ⟨⟨b, path, moduleName⟩, h.world, em⟩ := by
  have hq : h.request? d e (.emit name path moduleName) = some ⟨b, path, moduleName⟩ := by
    rw [request?_emit, hb]
    rfl
  obtain ⟨s', slot', -, -, -, hanswer⟩ :=
    step_emit_eq (d := d) (e := e) path moduleName hb hs hslot
  rw [event?_of_request? hq, congrArg Prod.fst hanswer]
  rfl

theorem exists_desk (hs : h.Sound L) (hb : h.builds.get? name = some (i, b)) :
    ∃ s slot, h.sessions[i]? = some s ∧ s.slots[b.slot]? = some slot ∧
      (slot.active = b.registration → L slot.engine b.set) := by
  have hi := List.getElem?_eq_getElem (hs.places i b ⟨name, hb⟩)
  obtain ⟨slot, hslot, -, hl⟩ := (hs.sessions i _ hi).known b ⟨name, hb⟩
  exact ⟨_, slot, hi, hslot, hl⟩

/-- **An emit of a path with content that compilers accept answers.** -/
theorem exists_event (path : String) (hk : e.Keeps L) (hs : h.Sound L)
    (hb : h.builds.get? name = some (i, b)) (hp : b.contains path = true)
    (hc : (b.set.origin.source h.world).content path = some content)
    (ha : e.Accepts L (Origin.source h.world) b.set path moduleName) :
    ∃ em, h.event? d e (.emit name path moduleName) =
      some ⟨⟨b, path, moduleName⟩, h.world, em⟩ := by
  obtain ⟨s, slot, hi, hslot, hl⟩ := exists_desk hs hb
  obtain ⟨em, hem⟩ :=
    Desk.exists_answer (d := d) (k := ⟨slot, s.cache, h.world.disk⟩) hk hl hp hc ha
  exact ⟨em, by rw [event?_emit hb hi hslot, hem]; rfl⟩

theorem builds_emit (h : Host σ) (name path : String) (moduleName : Option String) :
    (h.step d e (.emit name path moduleName)).1.builds = h.builds := by
  unfold step
  dsimp only
  split
  · rfl
  · unfold Host.emit
    dsimp only
    split <;> rfl

theorem table_emit (h : Host σ) (name path : String) (moduleName : Option String) :
    (h.step d e (.emit name path moduleName)).1.world.table = h.world.table := by
  unfold step
  dsimp only
  split
  · rfl
  · unfold Host.emit
    dsimp only
    split <;> rfl

/-- **What an emit answered is answered again**, under whatever path and by whatever build, as long
as nothing that it rests on changed. -/
theorem event_again (path' : String) (hs : h.Sound L) (hs' : h'.Sound L)
    (hb : h.builds.get? name = some (i, b))
    (hev : h.event? d e (.emit name path moduleName) = some ⟨⟨b, path, moduleName⟩, h.world, em⟩)
    (hsessions : h'.sessions = (h.step d e (.emit name path moduleName)).1.sessions)
    (hb' : h'.builds.get? name' = some (i, b')) (hp : b'.contains path' = true)
    (hc : (b.set.origin.source h.world).content path = some content)
    (hc' : (b'.set.origin.source h'.world).content path' = some content)
    (ho : b'.set.options.emit = b.set.options.emit) (huse : b'.set.options.useCache = true)
    (ha : em.unit.actionFor d b'.set.options.types (b'.set.origin.source h'.world) = .reuse) :
    ∃ version, h'.event? d e (.emit name' path' moduleName) =
      some ⟨⟨b', path', moduleName⟩, h'.world, ⟨{ em.unit with version }, .reuse⟩⟩ := by
  obtain ⟨s, slot, hi, hslot, -⟩ := exists_desk hs hb
  obtain ⟨s', slot', hi', hslot', -⟩ := exists_desk hs' hb'
  obtain ⟨t, slot₁, ht, -, hdesk, -⟩ :=
    step_emit_eq (d := d) (e := e) path moduleName hb hi hslot
  have hst : t = s' := Option.some.inj (ht.symm.trans (hsessions ▸ hi'))
  subst hst
  rw [event?_emit hb hi hslot] at hev
  obtain ⟨em', hem, he⟩ := Option.map_eq_some_iff.1 hev
  cases he
  obtain ⟨u, hu, hunit⟩ := Desk.exists_lookup?_emit hc (ok_of_toOption hem) h'.world.disk
  rw [hdesk, ← ho] at hu
  rw [hunit] at ha
  have hanswer := Desk.answer_of_lookup? (e := e) ⟨slot', t.cache, h'.world.disk⟩
    (Origin.source h'.world) hp hc' huse hu ha
  refine ⟨(slot'.tracker.version d path' content).1, ?_⟩
  rw [event?_emit hb' hi' hslot', hanswer, hunit]
  rfl

end Host

end CompileCache
