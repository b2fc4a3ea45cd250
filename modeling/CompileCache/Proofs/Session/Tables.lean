import CompileCache.Proofs.Disk.Written
import CompileCache.Proofs.Session.Shelves

/-!
# Tables — version tables that are in step with their trackers

* `Tracker.Filed`: a file says exactly what a tracker holds. `Tracker.InStep`: it does so unless
  something is unsaved, or nothing was recorded yet.
* `Disk.Discrete`: the tables of a cache directory are files of their own.
  `Disk.KeepsTables`: no table says anything else than before.
* `Desk.Outlet`, `Desk.written_emit`: where an emit can write.
* **`Desk.filed_emit`**: an emit that answers leaves the table of its slot in step.
  **`Desk.filed_or_dirty_emit`**: one that the compiler refuses does so unless it leaves something
  unsaved.
* `Session.InStep`, `Session.InStep.extend`, **`Session.InStep.emit`**: what a session does keeps
  its tables in step.
-/

namespace CompileCache

variable {σ : Type} {d : Digest} {e : Engine σ} {directory arch file : String} {disk disk' : Disk}

/-! ## Trackers and their files -/

namespace Tracker

variable {t : Tracker}

/-- A file says exactly what a tracker holds. -/
def Filed (disk : Disk) (file : String) (t : Tracker) : Prop :=
  ∃ s, disk.readText file = .ok s ∧ ofText? s = some t.saved

theorem filed_iff : t.Filed disk file ↔
    ∃ ns b, disk.Arrives file ns b ∧ b.text?.bind ofText? = some t.saved := by
  have htext := toOption_readText disk file
  constructor
  · rintro ⟨s, hs, ht⟩
    rw [hs] at htext
    obtain ⟨b, hb, hbs⟩ := Option.bind_eq_some_iff.1 htext.symm
    obtain ⟨ns, ha⟩ := Disk.exists_arrives (ok_of_toOption hb)
    exact ⟨ns, b, ha, by rw [hbs, Option.bind_some, ht]⟩
  · rintro ⟨ns, b, ha, ht⟩
    obtain ⟨s, hs, ht⟩ := Option.bind_eq_some_iff.1 ht
    rw [ha.read_eq] at htext
    exact ⟨s, ok_of_toOption (htext.trans hs), ht⟩

theorem filed_writeUnder (h : (disk.writeUnder file (.ofText t.text)).2 = .ok ()) :
    t.Filed (disk.writeUnder file (.ofText t.text)).1 file := by
  obtain ⟨ns, ha, -⟩ := Disk.arrives_writeUnder h
  exact filed_iff.2 ⟨ns, _, ha, by rw [text?_ofText, Option.bind_some, ofText?_text]; rfl⟩

theorem Filed.load_eq (h : t.Filed disk file) : load disk file = t.saved := by
  obtain ⟨s, hs, ht⟩ := h
  rw [load, hs]
  change (ofText? s).getD .empty = _
  rw [ht, Option.getD_some]

theorem Filed.written {Q : String → Prop} (h : t.Filed disk file) (hw : Disk.Written Q disk disk')
    (hq : ∀ q, Q q → disk'.Apart file q ∧ Path.names file ≠ Path.names q) :
    t.Filed disk' file := by
  obtain ⟨ns, b, ha, ht⟩ := filed_iff.1 h
  exact filed_iff.2 ⟨ns, b, hw.arrives ha hq, ht⟩

/-- A file says what a tracker holds, unless something is unsaved or nothing was recorded yet. -/
def InStep (disk : Disk) (file : String) (t : Tracker) : Prop :=
  t.dirty = true ∨ t = .empty ∨ t.Filed disk file

theorem ne_empty_of_current {path : String} {stamp : Stamp} (h : t.current path = some stamp) :
    t ≠ .empty := by
  rintro rfl
  cases h

theorem InStep.imp (h : t.InStep disk file) (hf : t.Filed disk file → t.Filed disk' file) :
    t.InStep disk' file := h.imp_right fun h => h.imp_right hf

theorem inStep_load (disk : Disk) (file : String) : (load disk file).InStep disk file := by
  refine .inr ?_
  cases hs : disk.readText file with
  | error f => exact .inl (by rw [load, hs])
  | ok s =>
    have hload : load disk file = (ofText? s).getD .empty := by rw [load, hs]
    cases ht : ofText? s with
    | none => exact .inl (by rw [hload, ht]; rfl)
    | some t =>
      rw [ht, Option.getD_some] at hload
      refine .inr ⟨s, hs, ?_⟩
      rw [saved_of_clean (by rw [dirty_load]; decide), hload, ht]

end Tracker

/-! ## The files of a cache directory -/

namespace Disk

/-- The tables of a cache directory are files of their own. -/
structure Discrete (directory : String) (d : Disk) : Prop where
  tables : ∀ arch arch', '/' ∉ arch.toList → '/' ∉ arch'.toList →
    d.Apart (Slot.tablePath directory arch) (Slot.tablePath directory arch')
  entries : ∀ arch key, '/' ∉ arch.toList → '/' ∉ key.toList →
    d.Apart (Slot.tablePath directory arch) (Cache.entryPath directory key)

/-- Without links, the tables of a directory whose path has no two points are files of their own. -/
theorem Linkless.discrete (h : disk.Linkless) (hd : ".." ∉ Path.pieces directory) :
    disk.Discrete directory where
  tables _ _ ha ha' := apart_of_linkless h ((h.orderly hd).table ha).dots
    ((h.orderly hd).table ha').dots
  entries _ _ ha hk := apart_of_linkless h ((h.orderly hd).table ha).dots
    ((h.orderly hd).entry hk).dots

/-- No table of a directory says anything else than before. -/
def KeepsTables (directory : String) (d d' : Disk) : Prop :=
  ∀ arch t, '/' ∉ arch.toList → Tracker.Filed d (Slot.tablePath directory arch) t →
    Tracker.Filed d' (Slot.tablePath directory arch) t

theorem KeepsTables.refl (directory : String) (d : Disk) : d.KeepsTables directory d :=
  fun _ _ _ => id

end Disk

/-! ## Emits -/

namespace Desk

variable {k : Desk σ} {view : View} {b : Build} {path : String} {moduleName : Option String}
  {em : Emission}

/-- The entry files of the cache directory of a desk. -/
def EntryOutlet (k : Desk σ) (q : String) : Prop :=
  ∃ directory ∈ k.cache.directory, ∃ key, '/' ∉ key.toList ∧ q = Cache.entryPath directory key

/-- The paths that an emit can write under. -/
def Outlet (k : Desk σ) (q : String) : Prop := k.EntryOutlet q ∨ q ∈ k.slot.tableFile

theorem written_workOf (hp : d.Plain) (k : Desk σ) (view : View) (b : Build)
    (path content : String) (moduleName : Option String) :
    Disk.Written k.EntryOutlet k.disk
      (k.workOf d e view b path content moduleName).desk.disk := by
  rcases (way_workOf (d := d) (e := e) k view b path content moduleName).disk_eq with
    hdisk | ⟨directory, hdirectory, body, hdisk⟩
  · rw [hdisk]
    exact .refl _ _
  · rw [hdisk]
    exact .single ⟨directory, hdirectory, _, hp _, rfl⟩ _ _

/-- **An emit writes nothing but an entry file and the table of its slot.** -/
theorem written_emit (hp : d.Plain) (k : Desk σ) (view : View) (b : Build) (path : String)
    (moduleName : Option String) :
    Disk.Written k.Outlet k.disk (k.emit d e view b path moduleName).desk.disk := by
  rcases emit_eq_or (d := d) (e := e) k view b path moduleName with he | ⟨content, -, -, he⟩
  · rw [he]
    exact .refl _ _
  · have hwork : Disk.Written k.Outlet k.disk
        (k.workOf d e view b path content moduleName).desk.disk :=
      (written_workOf hp k view b path content moduleName).mono fun _ => Or.inl
    rw [he, emitContent_eq]
    dsimp only
    rcases disk_finish (k.slot.tracker.version d path content).1
      (k.workOf d e view b path content moduleName) with hdisk | ⟨file, hfile, text, hdisk⟩
    · rw [hdisk]
      exact hwork
    · rw [hdisk]
      rw [tableFile_workOf] at hfile
      exact hwork.trans (.single (.inr hfile) _ _)

/-- **An emit that answers leaves the table of its slot in step, and nothing unsaved.** -/
theorem filed_emit (hp : d.Plain) (hbound : k.cache.directory = some directory)
    (harch : '/' ∉ arch.toList) (hfile : k.slot.tableFile = some (Slot.tablePath directory arch))
    (hw : k.Writes d e view b path moduleName)
    (hk : k.slot.tracker.InStep k.disk (Slot.tablePath directory arch))
    (hdiscrete : (k.emit d e view b path moduleName).desk.disk.Discrete directory)
    (ha : (k.emit d e view b path moduleName).answer = .ok em) :
    (k.emit d e view b path moduleName).desk.slot.tracker.dirty = false ∧
    (k.emit d e view b path moduleName).desk.slot.tracker.Filed
      (k.emit d e view b path moduleName).desk.disk (Slot.tablePath directory arch) := by
  obtain ⟨content, hc, hcurrent⟩ := current_emit ha
  have he := emit_eq_of_ok hc ha
  rw [he] at ha hcurrent hdiscrete ⊢
  obtain ⟨em', hwork, -, -⟩ := exists_of_emitContent ha
  have hs := hw content em' hc hwork
  obtain ⟨htracker, hdisk⟩ := emitContent_of_saves hwork hfile hs
  rw [htracker] at hcurrent ⊢
  rw [hdisk] at hdiscrete ⊢
  refine ⟨rfl, ?_⟩
  split
  · next hdirty =>
    have hwritten := hs.table hdirty _ (by rw [tableFile_workOf, hfile]; rfl)
    exact Tracker.filed_writeUnder hwritten
  · next hclean =>
    -- nothing new was observed, so the table said it before, and the entry file is another one
    rw [if_neg hclean] at hdiscrete
    have hsame : (k.workOf d e view b path content moduleName).desk.slot.tracker =
        k.slot.tracker := by
      rw [tracker_workOf k hc] at hclean ⊢
      exact (k.slot.tracker.eq_or_dirty _ _).resolve_right hclean
    rw [hsame] at hclean hcurrent ⊢
    have hne : k.slot.tracker ≠ .empty := Tracker.ne_empty_of_current hcurrent
    have hfiled := (hk.resolve_left hclean).resolve_left hne
    refine hfiled.written (written_workOf hp k view b path content moduleName) ?_
    rintro q ⟨dir, hdir, key, hkey, rfl⟩
    rw [hbound] at hdir
    cases hdir
    exact ⟨hdiscrete.entries arch key harch hkey, (names_entryPath_ne_tablePath _ _ _ _).symm⟩

theorem inStep_emit (hp : d.Plain) (hbound : k.cache.directory = some directory)
    (harch : '/' ∉ arch.toList) (hfile : k.slot.tableFile = some (Slot.tablePath directory arch))
    (hw : k.Writes d e view b path moduleName)
    (hk : k.slot.tracker.InStep k.disk (Slot.tablePath directory arch))
    (hdiscrete : (k.emit d e view b path moduleName).desk.disk.Discrete directory) :
    (k.emit d e view b path moduleName).desk.slot.tracker.InStep
      (k.emit d e view b path moduleName).desk.disk (Slot.tablePath directory arch) := by
  cases ha : (k.emit d e view b path moduleName).answer with
  | ok em => exact .inr (.inr (filed_emit hp hbound harch hfile hw hk hdiscrete ha).2)
  | error err =>
    obtain ⟨hdisk, htracker | hdirty⟩ := emit_of_error ha
    · rw [hdisk, htracker]
      exact hk
    · exact .inl hdirty

/-- **An emit that the compiler refuses leaves the table of its slot in step, or something
unsaved.** -/
theorem filed_or_dirty_emit {err : EngineError}
    (hk : k.slot.tracker.InStep k.disk file)
    (ha : (k.emit d e view b path moduleName).answer = .error (.engine err)) :
    (k.emit d e view b path moduleName).desk.slot.tracker.dirty = true ∨
    (k.emit d e view b path moduleName).desk.slot.tracker.Filed
      (k.emit d e view b path moduleName).desk.disk file := by
  obtain ⟨hdisk, htracker⟩ := emit_of_error ha
  rw [hdisk]
  rcases htracker with htracker | hdirty
  · rcases emit_eq_or (d := d) (e := e) k view b path moduleName with he | ⟨content, -, hc, he⟩
    · rw [he] at ha
      cases ha
    · have hcurrent : (k.emitContent d e view b path content moduleName).desk.slot.tracker.current
          path = some ⟨(k.slot.tracker.version d path content).1, d.ofText content⟩ :=
        current_emitContent hc
      rw [← he] at hcurrent
      rw [htracker] at hcurrent ⊢
      exact hk.imp_right fun h => h.resolve_left (Tracker.ne_empty_of_current hcurrent)
  · exact .inl hdirty

end Desk

/-! ## Sessions -/

namespace Session

variable {s s' : Session σ} {slot slot' : Slot σ} {b : Build} {w : World} {path : String}
  {moduleName : Option String}

/-- A session that stays with one cache directory, with all its tables in step. -/
structure InStep (directory : String) (disk : Disk) (s : Session σ) : Prop where
  homed : s.Homed directory
  trackers : ∀ arch, '/' ∉ arch.toList →
    (s.trackerFor disk directory arch).InStep disk (Slot.tablePath directory arch)

theorem inStep_new (directory : String) (disk : Disk) :
    (Session.new (.onDisk directory) : Session σ).InStep directory disk where
  homed := .new directory
  trackers _ _ := Tracker.inStep_load disk _

theorem InStep.trackerFor (h : s.InStep directory disk) (ha : '/' ∉ arch.toList)
    (hk : ∀ t, Tracker.Filed disk (Slot.tablePath directory arch) t →
      Tracker.Filed disk' (Slot.tablePath directory arch) t) :
    (s.trackerFor disk' directory arch).InStep disk' (Slot.tablePath directory arch) := by
  have hbefore := h.trackers arch ha
  unfold Session.trackerFor at hbefore ⊢
  cases hs : s.slot? arch with
  | none => exact Tracker.inStep_load disk' _
  | some slot =>
    rw [hs] at hbefore
    exact hbefore.imp (hk _)

theorem InStep.of_keepsTables (h : s.InStep directory disk)
    (hk : disk.KeepsTables directory disk') : s.InStep directory disk' where
  homed := h.homed
  trackers arch ha := h.trackerFor ha fun t => hk arch t ha

theorem InStep.extend (h : s.InStep directory disk) (hext : s.Extends s' disk directory) :
    s'.InStep directory disk where
  homed := hext.homed
  trackers arch ha := by
    rw [hext.trackers arch]
    exact h.trackers arch ha

theorem InStep.setCache (h : s.InStep directory disk) {cache : Cache}
    (hc : cache.directory = s.cache.directory) : { s with cache }.InStep directory disk where
  homed := ⟨hc.trans h.homed.bound, h.homed.places, h.homed.tables, h.homed.plain⟩
  trackers := h.trackers

theorem InStep.tracker (h : s.InStep directory disk) {i : Nat} (hi : s.slots[i]? = some slot) :
    slot.tracker.InStep disk (Slot.tablePath directory slot.arch) := by
  have htracker : s.trackerFor disk directory slot.arch = slot.tracker :=
    h.homed.trackerFor_eq hi
  rw [← htracker]
  exact h.trackers _ (h.homed.plain slot (List.mem_of_getElem? hi))

/-- An emit can write over none of the tables of other architectures. -/
theorem Homed.apart_outlet (h : s.Homed directory) {i : Nat} (hi : s.slots[i]? = some slot)
    (hdiscrete : disk'.Discrete directory) (ha : '/' ∉ arch.toList) (hne : arch ≠ slot.arch)
    {q : String} (hq : Desk.Outlet ⟨slot, s.cache, disk⟩ q) :
    disk'.Apart (Slot.tablePath directory arch) q ∧
      Path.names (Slot.tablePath directory arch) ≠ Path.names q := by
  have hmem := List.mem_of_getElem? hi
  rcases hq with ⟨dir, hdir, key, hkey, rfl⟩ | hq
  · rw [h.bound] at hdir
    cases hdir
    exact ⟨hdiscrete.entries arch key ha hkey, (Desk.names_entryPath_ne_tablePath _ _ _ _).symm⟩
  · rw [h.tables slot hmem] at hq
    cases hq
    have hplain := h.plain slot hmem
    exact ⟨hdiscrete.tables arch slot.arch ha hplain,
      Slot.names_tablePath_ne directory hplain ha hne⟩

/-- What an emit leaves: the session in step; what was recorded is in the table of the architecture
if there is an answer, and is in there or unsaved if the compiler refuses. -/
structure Settles (directory : String) (disk : Disk) (b : Build) (r : Result σ) : Prop where
  inStep : r.session.InStep directory r.disk
  places : r.session.Places b
  answered : ∀ em, r.answer = .ok em → ∃ slot, r.session.slot? b.set.options.arch = some slot ∧
    slot.tracker.dirty = false ∧
    slot.tracker.Filed r.disk (Slot.tablePath directory b.set.options.arch)
  refused : ∀ err, r.answer = .error (.engine err) → r.disk = disk ∧
    ∃ slot, r.session.slot? b.set.options.arch = some slot ∧
      (slot.tracker.dirty = true ∨
        slot.tracker.Filed r.disk (Slot.tablePath directory b.set.options.arch))

/-- **An emit keeps the tables of a session in step.** -/
theorem InStep.emit (h : s.InStep directory w.disk) (hp : d.Plain) (hb : s.Places b)
    (hw : s.Writes d e w b path moduleName)
    (hdiscrete : (s.emit d e w b path moduleName).disk.Discrete directory) :
    Settles directory w.disk b (s.emit d e w b path moduleName) := by
  obtain ⟨slot, hi, harch⟩ := hb
  have hmem := List.mem_of_getElem? hi
  have hplain := h.homed.plain slot hmem
  have hfile := h.homed.tables slot hmem
  have hwrites := hw slot hi
  rw [emit_eq_put hi] at hdiscrete ⊢
  dsimp only at hdiscrete ⊢
  have harch' := Desk.arch_emit (d := d) (e := e) ⟨slot, s.cache, w.disk⟩ (Origin.source w) b path
    moduleName
  have htable := Desk.tableFile_emit (d := d) (e := e) ⟨slot, s.cache, w.disk⟩ (Origin.source w) b
    path moduleName
  have hbound := Desk.directory_emit (d := d) (e := e) ⟨slot, s.cache, w.disk⟩ (Origin.source w) b
    path moduleName
  have hslot := h.homed.slot?_put_self hi harch' htable hbound
  constructor
  case inStep =>
    refine ⟨h.homed.put hi harch' htable hbound, fun a ha => ?_⟩
    -- the tracker of every other architecture is the old one, or the one that is loaded now
    rw [h.homed.trackerFor_put hi harch' htable hbound fun _ => rfl]
    split
    · next hsame =>
      subst hsame
      exact Desk.inStep_emit hp h.homed.bound ha hfile hwrites (h.tracker hi) hdiscrete
    · next hne =>
      exact h.trackerFor ha fun t ht => ht.written (Desk.written_emit hp _ _ _ _ _) fun q hq =>
        h.homed.apart_outlet hi hdiscrete ha hne hq
  case places => exact Places.put hi ⟨slot, hi, harch⟩ harch'
  case answered =>
    intro em hem
    rw [← harch]
    exact ⟨_, hslot,
      Desk.filed_emit hp h.homed.bound hplain hfile hwrites (h.tracker hi) hdiscrete hem⟩
  case refused =>
    intro err herr
    rw [← harch]
    exact ⟨(Desk.emit_of_error herr).1, _, hslot, Desk.filed_or_dirty_emit (h.tracker hi) herr⟩

theorem linkless_emit (hp : d.Plain) (hw : w.disk.Linkless) (s : Session σ) (b : Build)
    (path : String) (moduleName : Option String) :
    (s.emit d e w b path moduleName).disk.Linkless := by
  cases hi : s.slots[b.slot]? with
  | none =>
    unfold emit
    rw [hi]
    exact hw
  | some slot =>
    rw [emit_eq_put hi]
    exact (Desk.written_emit (e := e) hp ⟨slot, s.cache, w.disk⟩ (Origin.source w) b path
      moduleName).linkless hw

end Session

end CompileCache
