import CompileCache.Proofs.Session.Failures
import CompileCache.Proofs.Session.Homes

/-!
# Twins — desks and sessions that nobody can tell apart

* `Fingerprint.Proper`: the fingerprints of contents that a digest has to tell apart.
* `Desk.Twin`: two desks on one disk with the same records that find the same entries.
* **`Desk.Twin.emit`**: emits answer the same on twins, and leave twins.
* `Session.Twin`: two sessions at home in one directory whose desks are twins, whichever slots were
  made so far.
* **`Session.Twin.registerFiles`**, **`Session.Twin.emit`**: whatever the sessions do, they stay
  twins, and answer the same.
-/

namespace CompileCache

variable {σ : Type} {d : Digest} {e : Engine σ} {L : σ → WorkingSet → Prop}
  {K : ByteArray → Prop}

/-- A fingerprint of a content, of which all lengths fit eight bytes, and whose own bytes are in
`K`. -/
def Fingerprint.Proper (d : Digest) (K : ByteArray → Prop) (fp : Fingerprint) : Prop :=
  fp.Sized ∧ K fp.bytes ∧ ∃ content options moduleName, fp = .of d content options moduleName

namespace Fingerprint.Proper

variable {fp fp' : Fingerprint}

theorem plain (h : fp.Proper d K) (hp : d.Plain) : '/' ∉ fp.key.toList := by
  obtain ⟨-, -, content, options, moduleName, rfl⟩ := h
  exact hp _

/-- Keys tell proper fingerprints apart if the digest is faithful on what they stand for. -/
theorem eq_of_key_eq (h : fp.Proper d K) (h' : fp'.Proper d K) (hd : d.FaithfulOn K)
    (hk : fp.key = fp'.key) : fp = fp' := by
  obtain ⟨hs, hb, content, options, moduleName, rfl⟩ := h
  obtain ⟨hs', hb', content', options', moduleName', rfl⟩ := h'
  exact Fingerprint.eq_of_key_eq (hd.injective hb hb') hs hs' hk

end Fingerprint.Proper

/-! ## Saving -/

theorem Slot.persist_congr {s s' : Slot σ} (ht : s'.tracker = s.tracker)
    (hf : s'.tableFile = s.tableFile) (disk : Disk) :
    (s'.persist disk).1.tracker = (s.persist disk).1.tracker ∧
      (s'.persist disk).2 = (s.persist disk).2 := by
  unfold persist
  rw [hf]
  split
  · exact ⟨ht, rfl⟩
  · rw [ht]
    split
    · exact ⟨rfl, rfl⟩
    · exact ⟨ht, rfl⟩

namespace Desk

variable {k k' : Desk σ} {view : View} {b b' : Build} {path content : String}
  {moduleName : Option String} {fp : Fingerprint} {r r' : Result σ}

theorem finish_congr (ha : r'.answer = r.answer) (ht : r'.desk.slot.tracker = r.desk.slot.tracker)
    (hf : r'.desk.slot.tableFile = r.desk.slot.tableFile) (hd : r'.desk.disk = r.desk.disk)
    (version : UInt64) :
    (finish version r').desk.slot.tracker = (finish version r).desk.slot.tracker ∧
      (finish version r').desk.disk = (finish version r).desk.disk := by
  unfold finish
  rw [ha]
  split
  · exact ⟨ht, hd⟩
  · rw [hd]
    exact Slot.persist_congr ht hf _

/-! ## What is found after an emit -/

theorem found?_emitContent_of_ok {em : Emission}
    (hw : (k.workOf d e view b path content moduleName).answer = .ok em) :
    (k.emitContent d e view b path content moduleName).desk.found?
        (.of d content b.set.options.emit moduleName) =
      if em.outcome = .reuse then k.found? (.of d content b.set.options.emit moduleName)
      else some ⟨.of d content b.set.options.emit moduleName, em.unit⟩ := by
  have way := way_workOf (d := d) (e := e) k view b path content moduleName
  have hmemory := way.memory_self hw
  rw [found?_eq, cache_emitContent, hmemory]
  split
  · next ho =>
    have hfound : k.stored? (.of d content b.set.options.emit moduleName) = some em.unit :=
      way.reused_of hw ho
    rw [stored?_eq] at hfound
    obtain ⟨x, hx, -⟩ := Option.map_eq_some_iff.1 hfound
    change (k.found? _).or _ = k.found? _
    rw [hx]
    rfl
  · rfl

theorem found?_emitContent_of_error {err : BuildError}
    (hw : (k.workOf d e view b path content moduleName).answer = .error err) :
    (k.emitContent d e view b path content moduleName).desk.found?
        (.of d content b.set.options.emit moduleName) =
      k.found? (.of d content b.set.options.emit moduleName) := by
  rw [emitContent_eq, finish_of_error hw]
  dsimp only
  cases ended_workOf (d := d) (e := e) k view b path content moduleName with
  | done ha => rw [hw] at ha; cases ha
  | refused _ _ _ _ hdisk hcache =>
    rw [found?_eq, hdisk]
    rcases hcache with hc | hc
    · rw [hc]
      exact (found?_eq k _).symm
    · rw [hc]
      change (k.found? _).or ((k.cache.fetch k.disk _).load? k.disk _) = k.found? _
      rw [Cache.load?_congr (Cache.directory_fetch _ _ _) fun _ _ => rfl, found?_eq]
      cases k.cache.memory.get? (Fingerprint.of d content b.set.options.emit moduleName).key with
      | some x => rfl
      | none => exact Option.or_self

/-! ## Twins -/

/-- Two desks on one disk that nobody can tell apart: they have the same records, and find the same
entries for all fingerprints of contents. -/
structure Twin (d : Digest) (K : ByteArray → Prop) (k k' : Desk σ) : Prop where
  disk : k'.disk = k.disk
  directory : k'.cache.directory = k.cache.directory
  tableFile : k'.slot.tableFile = k.slot.tableFile
  tracker : k'.slot.tracker = k.slot.tracker
  found : ∀ fp : Fingerprint, fp.Proper d K → k'.found? fp = k.found? fp

theorem Twin.workOf (ht : k.Twin d K k') (he : e.Steady L) (hset : b'.set = b.set)
    (hl : k.slot.active = b.registration → L k.slot.engine b.set)
    (hl' : k'.slot.active = b'.registration → L k'.slot.engine b'.set)
    (hc : (view b.set.origin).content path = some content)
    (hfp : (Fingerprint.of d content b.set.options.emit moduleName).Proper d K) :
    (k'.workOf d e view b' path content moduleName).answer =
        (k.workOf d e view b path content moduleName).answer ∧
      (k'.workOf d e view b' path content moduleName).desk.slot.tracker =
        (k.workOf d e view b path content moduleName).desk.slot.tracker ∧
      (k'.workOf d e view b' path content moduleName).desk.disk =
        (k.workOf d e view b path content moduleName).desk.disk := by
  have hload := loaded_activate he.toKeeps hl
  have hload' := loaded_activate he.toKeeps hl'
  rw [hset] at hload'
  have hc' : (view b'.set.origin).content path = some content := by rw [hset]; exact hc
  have hstored : k'.stored? (.of d content b.set.options.emit moduleName) =
      k.stored? (.of d content b.set.options.emit moduleName) := by
    rw [stored?_eq, stored?_eq, ht.found _ hfp]
  have hsame : view b.set.origin = view b.set.origin := rfl
  have hcompile := he.compile_eq hload hload' hsame path moduleName
  have hdiagnose := he.diagnose_eq hload hload' hsame path
  have hanswer : (k'.workOf d e view b' path content moduleName).answer =
      (k.workOf d e view b path content moduleName).answer := by
    rw [answer_workOf k' hc', answer_workOf k hc, hset, ht.tracker, hstored, hcompile, hdiagnose]
  refine ⟨hanswer, ?_, ?_⟩
  · rw [tracker_workOf k' hc', tracker_workOf k hc, ht.tracker, hset]
    rw [lookedAt_eq, lookedAt_eq, hset, hstored, hcompile, hdiagnose]
  · have hdisk' := (way_workOf (d := d) (e := e) k' view b' path content moduleName).disk
    have hdisk := (way_workOf (d := d) (e := e) k view b path content moduleName).disk
    rw [hdisk', hdisk, hanswer, hset]
    have hwrite : ∀ x, k'.cache.writeEntry k'.disk x = k.cache.writeEntry k.disk x := by
      intro x
      unfold Cache.writeEntry Cache.entryPath?
      rw [ht.directory, ht.disk]
    split
    · exact ht.disk
    · split
      · exact ht.disk
      · exact hwrite _

theorem Twin.emitContent (ht : k.Twin d K k') (he : e.Steady L) (hset : b'.set = b.set)
    (hl : k.slot.active = b.registration → L k.slot.engine b.set)
    (hl' : k'.slot.active = b'.registration → L k'.slot.engine b'.set)
    (hc : (view b.set.origin).content path = some content)
    (hfp : (Fingerprint.of d content b.set.options.emit moduleName).Proper d K) :
    (k'.emitContent d e view b' path content moduleName).answer =
        (k.emitContent d e view b path content moduleName).answer ∧
      (k'.emitContent d e view b' path content moduleName).desk.slot.tracker =
        (k.emitContent d e view b path content moduleName).desk.slot.tracker ∧
      (k'.emitContent d e view b' path content moduleName).desk.disk =
        (k.emitContent d e view b path content moduleName).desk.disk ∧
      (k'.emitContent d e view b' path content moduleName).desk.found?
          (.of d content b.set.options.emit moduleName) =
        (k.emitContent d e view b path content moduleName).desk.found?
          (.of d content b.set.options.emit moduleName) := by
  obtain ⟨hanswer, htracker, hdisk⟩ := ht.workOf (e := e) he hset hl hl' hc hfp
  have hfile : (k'.workOf d e view b' path content moduleName).desk.slot.tableFile =
      (k.workOf d e view b path content moduleName).desk.slot.tableFile := by
    rw [tableFile_workOf, tableFile_workOf, ht.tableFile]
  have hversion : (k'.slot.tracker.version d path content).1 =
      (k.slot.tracker.version d path content).1 := by rw [ht.tracker]
  have hends := finish_congr hanswer htracker hfile hdisk (k.slot.tracker.version d path content).1
  refine ⟨?_, ?_, ?_, ?_⟩
  · rw [emitContent_eq, emitContent_eq]
    dsimp only
    rw [answer_finish_eq, answer_finish_eq, hanswer, hversion]
  · rw [emitContent_eq, emitContent_eq, hversion]
    exact hends.1
  · rw [emitContent_eq, emitContent_eq, hversion]
    exact hends.2
  · have hsame : Fingerprint.of d content b'.set.options.emit moduleName =
        .of d content b.set.options.emit moduleName := by rw [hset]
    cases hw : (k.workOf d e view b path content moduleName).answer with
    | error err =>
      rw [found?_emitContent_of_error hw, ← hsame,
        found?_emitContent_of_error (hanswer.trans hw), hsame, ht.found _ hfp]
    | ok em =>
      rw [found?_emitContent_of_ok hw, ← hsame,
        found?_emitContent_of_ok (hanswer.trans hw), hsame, ht.found _ hfp]

theorem Twin.found?_emit_of_ne (ht : k.Twin d K k') (hp : d.Plain) (hset : b'.set = b.set)
    (hk : k.InOrder L b) (hk' : k'.InOrder L b') (view : View) (path : String)
    (moduleName : Option String) {fp : Fingerprint} (hfp : fp.Proper d K)
    (hne : ∀ fp', b.fingerprint? d (view b.set.origin) (path, moduleName) = some fp' →
      fp'.key ≠ fp.key) :
    (k'.emit d e view b' path moduleName).desk.found? fp =
      (k.emit d e view b path moduleName).desk.found? fp := by
  rw [Desk.found?_emit_of_ne hp hk (hfp.plain hp) hne,
    Desk.found?_emit_of_ne hp hk' (hfp.plain hp), ht.found fp hfp]
  unfold Build.fingerprint?
  rw [hset]
  exact hne

/-- **Emits answer the same on twins, and leave twins.** -/
theorem Twin.emit (ht : k.Twin d K k') (he : e.Steady L) (hd : d.FaithfulOn K) (hp : d.Plain)
    (hset : b'.set = b.set) (hk : k.InOrder L b) (hk' : k'.InOrder L b') (view : View)
    (path : String) (moduleName : Option String)
    (hproper : ∀ fp, b.fingerprint? d (view b.set.origin) (path, moduleName) = some fp →
      fp.Proper d K) :
    (k'.emit d e view b' path moduleName).answer = (k.emit d e view b path moduleName).answer ∧
      (k.emit d e view b path moduleName).desk.Twin d K
        (k'.emit d e view b' path moduleName).desk := by
  have hdirectory := k.directory_emit (d := d) (e := e) view b path moduleName
  have hdirectory' := k'.directory_emit (d := d) (e := e) view b' path moduleName
  have htable := k.tableFile_emit (d := d) (e := e) view b path moduleName
  have htable' := k'.tableFile_emit (d := d) (e := e) view b' path moduleName
  have hothers := fun (fp : Fingerprint) (hfp : fp.Proper d K) =>
    ht.found?_emit_of_ne (e := e) hp hset hk hk' view path moduleName hfp
  have hcontains : b'.contains path = b.contains path := by
    unfold Build.contains
    rw [hset]
  cases hb : b.contains path with
  | false =>
    unfold Desk.emit
    rw [if_pos hb, if_pos (hcontains.trans hb)]
    exact ⟨rfl, ht⟩
  | true =>
    cases hc : (view b.set.origin).content path with
    | none =>
      unfold Desk.emit
      rw [hset, hcontains, hb, hc]
      exact ⟨rfl, ht⟩
    | some content =>
      have hc' : (view b'.set.origin).content path = some content := by rw [hset]; exact hc
      have hmine := b.fingerprint?_of_content d hc moduleName
      have hfp := hproper _ hmine
      obtain ⟨hanswer, htracker, hdisk, hself⟩ :=
        ht.emitContent (e := e) he hset hk.loaded hk'.loaded hc hfp
      rw [emit_eq hb hc, emit_eq (hcontains.trans hb) hc'] at *
      refine ⟨hanswer, hdisk, by rw [hdirectory, hdirectory', ht.directory],
        by rw [htable, htable', ht.tableFile], htracker, fun fp hproper => ?_⟩
      by_cases hkey : (Fingerprint.of d content b.set.options.emit moduleName).key = fp.key
      · rw [← hfp.eq_of_key_eq hproper hd hkey]
        exact hself
      · refine hothers fp hproper fun fp' hfp' => ?_
        cases hmine.symm.trans hfp'
        exact hkey

end Desk

/-! ## Disks -/

namespace Disk

variable {disk disk' : Disk} {directory : String}

/-- Two disks have the same files in the folders of a cache directory. -/
def Agrees (disk disk' : Disk) (directory : String) : Prop :=
  ∀ folder ∈ ["entries", "versions"], ∀ file : String, '/' ∉ file.toList →
    (disk'.read (Path.join (Path.join directory folder) file)).toOption =
      (disk.read (Path.join (Path.join directory folder) file)).toOption

theorem Agrees.entry (h : disk.Agrees disk' directory) {key : String} (hk : '/' ∉ key.toList) :
    (disk'.read (Cache.entryPath directory key)).toOption =
      (disk.read (Cache.entryPath directory key)).toOption :=
  h "entries" (by simp) _ (Cache.slash_not_mem_entryName hk)

theorem Agrees.table (h : disk.Agrees disk' directory) {arch : String} (ha : '/' ∉ arch.toList) :
    (disk'.read (Slot.tablePath directory arch)).toOption =
      (disk.read (Slot.tablePath directory arch)).toOption :=
  h "versions" (by simp) _ (Path.plain_append ha ".json" (by decide) (by decide)).1

end Disk

/-! ## Sessions -/

namespace Session

variable {s s' s₁ : Session σ} {directory path : String} {disk disk' : Disk} {slot slot' : Slot σ}
  {b b' : Build} {w : World} {moduleName : Option String} {B B' : Build → Prop}

/-- The entry that a session finds. -/
def found? (s : Session σ) (disk : Disk) (fp : Fingerprint) : Option Entry :=
  (s.cache.fetch disk fp).memory.get? fp.key

theorem found?_eq (s : Session σ) (disk : Disk) (fp : Fingerprint) :
    s.found? disk fp = (s.cache.memory.get? fp.key).or (s.cache.load? disk fp) :=
  s.cache.get?_fetch_self disk fp

/-- Two sessions at home in one directory that nobody can tell apart: for each architecture they
have the same records, or would load them, and they find the same entries. -/
structure Twin (d : Digest) (K : ByteArray → Prop) (directory : String) (disk : Disk)
    (s s' : Session σ) : Prop where
  homed : s.Homed directory
  homed' : s'.Homed directory
  trackers : ∀ arch, '/' ∉ arch.toList →
    s'.trackerFor disk directory arch = s.trackerFor disk directory arch
  found : ∀ fp : Fingerprint, fp.Proper d K → s'.found? disk fp = s.found? disk fp

theorem Twin.symm (h : s.Twin d K directory disk s') : s'.Twin d K directory disk s :=
  ⟨h.homed', h.homed, fun arch ha => (h.trackers arch ha).symm, fun fp hfp => (h.found fp hfp).symm⟩

theorem Twin.trans (h : s.Twin d K directory disk s') (h' : s'.Twin d K directory disk s₁) :
    s.Twin d K directory disk s₁ :=
  ⟨h.homed, h'.homed', fun arch ha => (h'.trackers arch ha).trans (h.trackers arch ha),
    fun fp hfp => (h'.found fp hfp).trans (h.found fp hfp)⟩

theorem Twin.extend (h : s.Twin d K directory disk s') (hx : s.Extends s₁ disk directory) :
    s₁.Twin d K directory disk s' where
  homed := hx.homed
  homed' := h.homed'
  trackers arch ha := (h.trackers arch ha).trans (hx.trackers arch).symm
  found fp hfp := by
    refine (h.found fp hfp).trans ?_
    unfold found?
    rw [hx.cache]

/-- **Twins that register the same stay twins.** -/
theorem Twin.registerFiles (h : s.Twin d K directory disk s') {set : WorkingSet}
    (ha : '/' ∉ set.options.arch.toList) :
    (s.registerFiles e disk set).2.1.Twin d K directory disk (s'.registerFiles e disk set).2.1 :=
  ((h.extend (h.homed.registerFiles disk ha).1).symm.extend (h.homed'.registerFiles disk ha).1).symm

theorem Twin.desk (h : s.Twin d K directory disk s') {i i' : Nat} (hi : s.slots[i]? = some slot)
    (hi' : s'.slots[i']? = some slot') (harch : slot'.arch = slot.arch) :
    Desk.Twin d K ⟨slot, s.cache, disk⟩ ⟨slot', s'.cache, disk⟩ where
  disk := rfl
  directory := h.homed'.bound.trans h.homed.bound.symm
  tableFile := by
    have ht := h.homed.tables slot (List.mem_of_getElem? hi)
    have ht' := h.homed'.tables slot' (List.mem_of_getElem? hi')
    rw [harch] at ht'
    exact ht'.trans ht.symm
  tracker := by
    have ht := h.trackers slot.arch (h.homed.plain slot (List.mem_of_getElem? hi))
    rw [h.homed.trackerFor_eq hi, ← harch, h.homed'.trackerFor_eq hi'] at ht
    exact ht
  found := h.found

theorem Places.emit {b₁ : Build} (h : s.Places b₁) (d : Digest) (e : Engine σ) (w : World)
    (b : Build) (path : String) (moduleName : Option String) :
    (s.emit d e w b path moduleName).session.Places b₁ := by
  cases hi : s.slots[b.slot]? with
  | none =>
    unfold Session.emit
    rw [hi]
    exact h
  | some slot =>
    rw [emit_eq_put hi]
    exact h.put hi (Desk.arch_emit _ _ _ _ _)

theorem orderly_emit (h : w.disk.Orderly directory) (s : Session σ) (b : Build) (path : String)
    (moduleName : Option String) :
    (s.emit d e w b path moduleName).disk.Orderly directory := by
  cases hi : s.slots[b.slot]? with
  | none =>
    unfold Session.emit
    rw [hi]
    exact h
  | some slot =>
    rw [emit_eq_put hi]
    exact Desk.orderly_emit h _ _ _ _

theorem Sound.loaded (hs : s.Sound L B) (hb : B b) (hi : s.slots[b.slot]? = some slot) :
    slot.active = b.registration → L slot.engine b.set := by
  obtain ⟨slot', hi', -, hl⟩ := hs.known b hb
  cases hi.symm.trans hi'
  exact hl

/-- **Emits answer the same on twins, and leave twins on one disk.** -/
theorem Twin.emit (h : s.Twin d K directory w.disk s') (he : e.Steady L) (hd : d.FaithfulOn K)
    (hp : d.Plain) (ho : w.disk.Orderly directory) (hset : b'.set = b.set)
    (hs : s.Sound L B) (hb : B b) (hplaces : s.Places b)
    (hs' : s'.Sound L B') (hb' : B' b') (hplaces' : s'.Places b')
    (hproper : ∀ fp, b.fingerprint? d (b.set.origin.source w) (path, moduleName) = some fp →
      fp.Proper d K) :
    (s'.emit d e w b' path moduleName).answer = (s.emit d e w b path moduleName).answer ∧
      (s'.emit d e w b' path moduleName).disk = (s.emit d e w b path moduleName).disk ∧
      (s.emit d e w b path moduleName).session.Twin d K directory
        (s.emit d e w b path moduleName).disk (s'.emit d e w b' path moduleName).session := by
  obtain ⟨slot, hi, ha⟩ := hplaces
  obtain ⟨slot', hi', ha'⟩ := hplaces'
  have harch : slot'.arch = slot.arch := by rw [ha, ha', hset]
  have hdesk := h.desk hi hi' harch
  obtain ⟨hanswer, htwin⟩ := hdesk.emit he hd hp hset
    ((h.homed.atHome ho hi).inOrder (hs.loaded hb hi))
    ((h.homed'.atHome ho hi').inOrder (hs'.loaded hb' hi')) (Origin.source w) path moduleName
    hproper
  obtain ⟨hhomed, -, htrackers⟩ := h.homed.emit (e := e) ho hp hi path moduleName
  obtain ⟨hhomed', -, htrackers'⟩ := h.homed'.emit (e := e) ho hp hi' path moduleName
  rw [emit_eq_put hi, emit_eq_put hi']
  refine ⟨hanswer, htwin.disk, hhomed, hhomed', fun arch hplain => ?_, fun fp hfp => ?_⟩
  · refine Eq.trans ?_ (htrackers arch hplain).symm
    have hright := htrackers' arch hplain
    rw [htwin.disk, htwin.tracker, harch, h.trackers arch hplain] at hright
    exact hright
  · have hfound := htwin.found fp hfp
    unfold Desk.found? at hfound
    rw [htwin.disk] at hfound
    exact hfound

/-! ## Twins by themselves -/

theorem Homed.clear (h : s.Homed directory) :
    Homed { s with cache := s.cache.clear } directory := ⟨h.bound, h.places, h.tables, h.plain⟩

theorem Twin.clear (h : s.Twin d K directory disk s') :
    Twin d K directory disk { s with cache := s.cache.clear }
      { s' with cache := s'.cache.clear } where
  homed := h.homed.clear
  homed' := h.homed'.clear
  trackers := h.trackers
  found fp hfp := by
    rw [found?_eq, found?_eq]
    exact congrArg _ (Cache.load?_congr (h.homed'.bound.trans h.homed.bound.symm) fun _ _ => rfl)

/-- **Twins stay twins whatever happens to other files.** -/
theorem Twin.of_agrees (h : s.Twin d K directory disk s') (ha : disk.Agrees disk' directory)
    (hp : d.Plain) : s.Twin d K directory disk' s' where
  homed := h.homed
  homed' := h.homed'
  trackers arch hplain := by
    have hload := Tracker.load_congr (ha.table hplain)
    have ht := h.trackers arch hplain
    unfold trackerFor at ht ⊢
    rw [hload]
    exact ht
  found fp hfp := by
    have hload : ∀ c : Cache, c.directory = some directory →
        c.load? disk' fp = c.load? disk fp := by
      intro c hc
      refine Cache.load?_congr rfl fun dir hdir => ?_
      cases hc.symm.trans hdir
      exact ha.entry (hfp.plain hp)
    have hf := h.found fp hfp
    rw [found?_eq, found?_eq] at hf ⊢
    rw [hload _ h.homed.bound, hload _ h.homed'.bound]
    exact hf

end Session

end CompileCache
