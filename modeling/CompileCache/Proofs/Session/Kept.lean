import CompileCache.Proofs.Session.Saves
import CompileCache.Proofs.Session.Twins

/-!
# Kept — sessions that hold nothing but what is in their files

* `Desk.Writes`, `Session.Writes`: the files of an emit are written, if it answers.
* `Desk.Kept`: the records and the entries of a desk are those of its files.
* `Session.Kept`: a session that is the twin of one that has done nothing.
* **`Desk.Kept.emit`**, **`Session.Kept.emit`**: an emit whose files are written, and at which the
  compiler does not fail, leaves nothing that is not in the files.
-/

namespace CompileCache

variable {σ : Type} {d : Digest} {e : Engine σ} {L : σ → WorkingSet → Prop}
  {K : ByteArray → Prop}

namespace Desk

variable {k : Desk σ} {view : View} {b : Build} {path directory : String}
  {moduleName : Option String}

/-- The files of an emit are written, if it answers. -/
def Writes (d : Digest) (e : Engine σ) (k : Desk σ) (view : View) (b : Build) (path : String)
    (moduleName : Option String) : Prop :=
  ∀ content em, (view b.set.origin).content path = some content →
    (k.workOf d e view b path content moduleName).answer = .ok em →
    k.Saves (.of d content b.set.options.emit moduleName) em
      (k.workOf d e view b path content moduleName)

instance (k : Desk σ) (view : View) (b : Build) (path : String) (moduleName : Option String) :
    Decidable (k.Writes d e view b path moduleName) :=
  match hc : (view b.set.origin).content path with
  | none => .isTrue fun _ _ hc' => nomatch hc.symm.trans hc'
  | some content =>
    match ha : (k.workOf d e view b path content moduleName).answer with
    | .error _ => .isTrue fun _ _ hc' ha' => by
      cases hc.symm.trans hc'
      cases ha.symm.trans ha'
    | .ok em =>
      decidable_of_iff (k.Saves (.of d content b.set.options.emit moduleName) em
          (k.workOf d e view b path content moduleName))
        ⟨fun h _ _ hc' ha' => by
          cases hc.symm.trans hc'
          cases ha.symm.trans ha'
          exact h, fun h => h content em hc ha⟩

/-- A desk that holds nothing but what is in its files. -/
structure Kept (d : Digest) (K : ByteArray → Prop) (directory : String) (k : Desk σ) : Prop where
  tracker : Tracker.load k.disk (Slot.tablePath directory k.slot.arch) = k.slot.tracker
  found : ∀ fp : Fingerprint, fp.Proper d K → k.found? fp = (Cache.onDisk directory).load? k.disk fp

theorem exists_engineError {content : String} {err : BuildError}
    (hc : (view b.set.origin).content path = some content)
    (h : (k.workOf d e view b path content moduleName).answer = .error err) :
    ∃ err', err = .engine err' := by
  rw [answer_workOf k hc] at h
  generalize Plan.answer _ _ _ _ _ = r at h
  cases r with
  | error err' => cases h; exact ⟨err', rfl⟩
  | ok em => cases h

theorem Kept.found?_emit_of_ne (h : k.Kept d K directory) (hhome : k.AtHome directory)
    (horder : k.InOrder L b) (hp : d.Plain) {fp : Fingerprint} (hfp : fp.Proper d K)
    (hne : ∀ fp', b.fingerprint? d (view b.set.origin) (path, moduleName) = some fp' →
      fp'.key ≠ fp.key) :
    (k.emit d e view b path moduleName).desk.found? fp =
      (Cache.onDisk directory).load? (k.emit d e view b path moduleName).desk.disk fp := by
  have hload : ∀ (c : Cache) (disk : Disk), c.directory = some directory →
      c.load? disk fp = (Cache.onDisk directory).load? disk fp :=
    fun c disk hc => Cache.load?_congr hc fun _ _ => rfl
  have hfile := load?_emit_of_ne (e := e) hp horder (hfp.plain hp) hne
  rw [hload _ _ hhome.bound,
    hload _ _ ((k.directory_emit _ _ _ _).trans hhome.bound)] at hfile
  rw [Desk.found?_emit_of_ne hp horder (hfp.plain hp) hne, hfile, h.found fp hfp]

section Answers

variable {content : String} {em : Emission} (h : k.Kept d K directory) (hhome : k.AtHome directory)
  (hc : (view b.set.origin).content path = some content)
  (hw : (k.workOf d e view b path content moduleName).answer = .ok em)
  (hs : k.Saves (.of d content b.set.options.emit moduleName) em
    (k.workOf d e view b path content moduleName))
  (hproper : (Fingerprint.of d content b.set.options.emit moduleName).Proper d K) (hp : d.Plain)
include h hhome hw hs hproper hp

include hc in
theorem Kept.load_emitContent :
    Tracker.load (k.emitContent d e view b path content moduleName).desk.disk
        (Slot.tablePath directory k.slot.arch) =
      (k.emitContent d e view b path content moduleName).desk.slot.tracker := by
  refine Desk.load_emitContent hw hhome.table hs hc (fun dir hdir => ?_)
    (hhome.orderly.table hhome.plain) fun _ => h.tracker
  cases hhome.bound.symm.trans hdir
  exact ⟨hhome.orderly.entry (hproper.plain hp), (names_entryPath_ne_tablePath _ _ _ _).symm⟩

theorem Kept.found?_emitContent :
    (k.emitContent d e view b path content moduleName).desk.found?
        (.of d content b.set.options.emit moduleName) =
      (Cache.onDisk directory).load?
        (k.emitContent d e view b path content moduleName).desk.disk
        (.of d content b.set.options.emit moduleName) := by
  have hread := read_emitContent hw hhome.table hs hhome.bound
    (hhome.orderly.entry (hproper.plain hp)) (hhome.orderly.table hhome.plain)
    (names_entryPath_ne_tablePath _ _ _ _).symm
  rw [found?_emitContent_of_ok hw]
  generalize (k.emitContent d e view b path content moduleName).desk.disk = disk at hread ⊢
  split
  · next ho =>
    rw [if_pos ho] at hread
    rw [h.found _ hproper]
    refine (Cache.load?_congr rfl fun dir hdir => ?_).symm
    cases hdir
    exact hread
  · next ho =>
    rw [if_neg ho] at hread
    refine (Cache.load?_eq_some_iff.2 ⟨rfl, directory, ?_⟩).symm
    exact ⟨rfl, ok_of_toOption hread⟩

end Answers

/-- **An emit whose files are written, and at which the compiler does not fail, leaves nothing on
the desk that is not in the files.** -/
theorem Kept.emit (h : k.Kept d K directory) (hhome : k.AtHome directory) (horder : k.InOrder L b)
    (hd : d.FaithfulOn K) (hp : d.Plain)
    (hmine : ∀ fp, b.fingerprint? d (view b.set.origin) (path, moduleName) = some fp →
      fp.Proper d K)
    (hwrites : k.Writes d e view b path moduleName)
    (hfine : ∀ err, (k.emit d e view b path moduleName).answer ≠ .error (.engine err)) :
    (k.emit d e view b path moduleName).desk.Kept d K directory := by
  rcases emit_eq_or (d := d) (e := e) k view b path moduleName with he | ⟨content, -, hc, he⟩
  · rw [he]; exact h
  have hfp := b.fingerprint?_of_content d hc moduleName
  have hproper := hmine _ hfp
  have harch := k.arch_emit (d := d) (e := e) view b path moduleName
  rw [he] at harch hfine ⊢
  cases hw : (k.workOf d e view b path content moduleName).answer with
  | error err =>
    obtain ⟨err', rfl⟩ := exists_engineError hc hw
    refine absurd ?_ (hfine err')
    rw [emitContent_eq]
    dsimp only
    rw [answer_finish_eq, hw]
    rfl
  | ok em =>
    have hs := hwrites content em hc hw
    refine ⟨?_, fun fp hfp' => ?_⟩
    · rw [harch]
      exact h.load_emitContent hhome hc hw hs hproper hp
    · by_cases hkey : (Fingerprint.of d content b.set.options.emit moduleName).key = fp.key
      · rw [← hproper.eq_of_key_eq hfp' hd hkey]
        exact h.found?_emitContent hhome hw hs hproper hp
      · rw [← he]
        refine h.found?_emit_of_ne hhome horder hp hfp' fun fp' hfp'' => ?_
        cases hfp.symm.trans hfp''
        exact hkey

end Desk

namespace Session

/-- A session that holds nothing but what is in its files: nobody can tell it from one that has
done nothing. -/
def Kept (d : Digest) (K : ByteArray → Prop) (directory : String) (disk : Disk) (s : Session σ) :
    Prop :=
  s.Twin d K directory disk (.new (.onDisk directory))

variable {s : Session σ} {directory path : String} {disk : Disk} {slot : Slot σ} {b : Build}
  {w : World} {moduleName : Option String} {fp : Fingerprint}

theorem found?_new (directory : String) (disk : Disk) (fp : Fingerprint) :
    (new (.onDisk directory) : Session σ).found? disk fp =
      (Cache.onDisk directory).load? disk fp := found?_eq _ _ _

theorem Kept.new (d : Digest) (directory : String) (disk : Disk) :
    (Session.new (.onDisk directory) : Session σ).Kept d K directory disk :=
  ⟨.new directory, .new directory, fun _ _ => rfl, fun _ _ => rfl⟩

theorem Kept.desk (h : s.Kept d K directory disk) {i : Nat} (hi : s.slots[i]? = some slot) :
    Desk.Kept d K directory ⟨slot, s.cache, disk⟩ where
  tracker := by
    have ht := h.trackers slot.arch (h.homed.plain slot (List.mem_of_getElem? hi))
    rw [h.homed.trackerFor_eq hi] at ht
    exact ht
  found fp hfp := (h.found fp hfp).symm.trans (found?_new directory disk fp)

/-- The files of an emit of a session are written, if it answers. -/
def Writes (d : Digest) (e : Engine σ) (s : Session σ) (w : World) (b : Build) (path : String)
    (moduleName : Option String) : Prop :=
  ∀ slot, s.slots[b.slot]? = some slot →
    Desk.Writes d e ⟨slot, s.cache, w.disk⟩ (Origin.source w) b path moduleName

instance (s : Session σ) (w : World) (b : Build) (path : String) (moduleName : Option String) :
    Decidable (s.Writes d e w b path moduleName) :=
  decidable_of_iff (∀ slot ∈ s.slots[b.slot]?,
    Desk.Writes d e ⟨slot, s.cache, w.disk⟩ (Origin.source w) b path moduleName) Iff.rfl

/-- **An emit whose files are written, and at which the compiler does not fail, leaves nothing in
the session that is not in the files.** -/
theorem Kept.emit (h : s.Kept d K directory w.disk) (hd : d.FaithfulOn K) (hp : d.Plain)
    (ho : w.disk.Orderly directory) {B : Build → Prop} (hs : s.Sound L B) (hb : B b)
    (hproper : ∀ fp, b.fingerprint? d (b.set.origin.source w) (path, moduleName) = some fp →
      fp.Proper d K)
    (hwrites : s.Writes d e w b path moduleName)
    (hfine : ∀ err, (s.emit d e w b path moduleName).answer ≠ .error (.engine err)) :
    (s.emit d e w b path moduleName).session.Kept d K directory
      (s.emit d e w b path moduleName).disk := by
  cases hi : s.slots[b.slot]? with
  | none =>
    unfold Session.emit
    rw [hi]
    exact h
  | some slot =>
    have hhome := h.homed.atHome ho hi
    obtain ⟨hhomed, -, htrackers⟩ := h.homed.emit (e := e) ho hp hi path moduleName
    rw [emit_eq_put hi] at hfine ⊢
    have hkept := (h.desk hi).emit hhome (hhome.inOrder (hs.loaded hb hi)) hd hp hproper
      (hwrites slot hi) hfine
    refine ⟨hhomed, .new directory, fun arch ha => ?_, fun fp hfp => ?_⟩
    · refine Eq.trans ?_ (htrackers arch ha).symm
      split
      · next hsame =>
        have ht := hkept.tracker
        rw [Desk.arch_emit, ← hsame] at ht
        exact ht
      · next hne =>
        exact (hhome.load_emit_of_ne hp ha hne (Origin.source w) b path moduleName).trans
          (h.trackers arch ha)
    · exact (found?_new _ _ _).trans (hkept.found fp hfp).symm

end Session

end CompileCache
