import CompileCache.Proofs.Session.Kept
import CompileCache.Proofs.Tracker.Precedes

/-!
# Shelves — the trackers of a session and the files of their records

* `Desk.Within`: a desk whose files are in some cache directories. `Desk.Within.load_emit_of_ne`,
  **`Desk.Within.load_emit`**: an emit leaves the tables of other slots, and one that answers leaves
  in its own table what the slot holds.
* `Shelf`: the trackers of a session with their files. `Shelf.Newest`: the last one with its file.
* `Shelf.Dated`: the newest tracker of each file counts on from what the file says.
* `Session.Tabled`, **`Session.Tabled.registerFiles`**, **`Session.Tabled.emit`**: what a session
  does keeps its shelf dated, if emits go through the newest trackers; and no table loses a record
  or gets a lower version.
-/

namespace CompileCache

variable {σ : Type} {d : Digest} {e : Engine σ} {D : String → Prop}

/-! ## Emits -/

namespace Desk

variable {k : Desk σ} {view : View} {b : Build} {path : String} {moduleName : Option String}
  {em : Emission} {file : String}

/-- A desk whose cache directory and table are those of some orderly cache directories. -/
structure Within (D : String → Prop) (k : Desk σ) : Prop where
  orderly : ∀ directory, D directory → k.disk.Orderly directory
  bound : ∀ directory ∈ k.cache.directory, D directory
  table : ∀ file ∈ k.slot.tableFile, Slot.IsTable D file

/-- The entry files of a desk are no tables. -/
theorem Within.entry (h : k.Within D) (hp : d.Plain) (hf : Slot.IsTable D file) {content : String} :
    ∀ directory ∈ k.cache.directory,
      k.disk.Straight (Cache.entryPath directory
        (Fingerprint.of d content b.set.options.emit moduleName).key) ∧
      Path.names file ≠ Path.names (Cache.entryPath directory
        (Fingerprint.of d content b.set.options.emit moduleName).key) := by
  obtain ⟨directory', arch, -, -, rfl⟩ := hf
  exact fun directory hd => ⟨(h.orderly directory (h.bound directory hd)).entry (hp _),
    (names_entryPath_ne_tablePath directory _ directory' arch).symm⟩

theorem Within.load_emit_of_ne (h : k.Within D) (hp : d.Plain) (hf : Slot.IsTable D file)
    (hne : ∀ file' ∈ k.slot.tableFile, Path.names file ≠ Path.names file') (view : View) (b : Build)
    (path : String) (moduleName : Option String) :
    Tracker.load (k.emit d e view b path moduleName).desk.disk file = Tracker.load k.disk file :=
  Tracker.load_congr (read_emit_of_ne (hf.straight h.orderly) (fun _ _ => h.entry hp hf)
    fun file' hf' => ⟨(h.table file' hf').straight h.orderly, hne file' hf'⟩)

/-- **An emit that answers leaves in the table of its slot what the slot holds.** -/
theorem Within.load_emit (h : k.Within D) (hp : d.Plain) (hfile : k.slot.tableFile = some file)
    (hw : k.Writes d e view b path moduleName)
    (hkept : ¬k.slot.tracker.dirty = true → Tracker.load k.disk file = k.slot.tracker)
    (ha : (k.emit d e view b path moduleName).answer = .ok em) :
    Tracker.load (k.emit d e view b path moduleName).desk.disk file =
      (k.emit d e view b path moduleName).desk.slot.tracker := by
  rcases emit_eq_or (d := d) (e := e) k view b path moduleName with he | ⟨content, -, hc, he⟩
  · rw [he] at ha
    cases ha
  rw [he] at ha ⊢
  obtain ⟨em', hwork, -, -⟩ := exists_of_emitContent ha
  have htable := h.table file hfile
  exact load_emitContent hwork hfile (hw content em' hc hwork) hc (h.entry hp htable)
    (htable.straight h.orderly) hkept

theorem emit_of_error {err : BuildError}
    (ha : (k.emit d e view b path moduleName).answer = .error err) :
    (k.emit d e view b path moduleName).desk.disk = k.disk ∧
      ((k.emit d e view b path moduleName).desk.slot.tracker = k.slot.tracker ∨
        (k.emit d e view b path moduleName).desk.slot.tracker.dirty = true) := by
  rcases emit_eq_or (d := d) (e := e) k view b path moduleName with he | ⟨content, -, hc, he⟩
  · rw [he]
    exact ⟨rfl, .inl rfl⟩
  rw [he] at ha ⊢
  have hwork : (k.workOf d e view b path content moduleName).answer = .error err := by
    rw [emitContent_eq] at ha
    dsimp only at ha
    rw [answer_finish_eq] at ha
    cases hr : (k.workOf d e view b path content moduleName).answer with
    | error err' => rw [hr] at ha; exact ha
    | ok em => rw [hr] at ha; cases ha
  refine ⟨(refused_emitContent hc hwork).disk, ?_⟩
  rw [emitContent_eq, finish_of_error hwork]
  dsimp only
  rw [tracker_workOf k hc]
  exact k.slot.tracker.eq_or_dirty _ _

theorem precedes_emit (ha : k.slot.tracker.Ample) (view : View) (b : Build) (path : String)
    (moduleName : Option String) :
    k.slot.tracker.Precedes (k.emit d e view b path moduleName).desk.slot.tracker := by
  rcases emit_eq_or (d := d) (e := e) k view b path moduleName with he | ⟨content, -, hc, he⟩
  · rw [he]
    exact .refl _
  intro p old hold
  rw [he, emitContent_eq]
  dsimp only
  rw [current_finish]
  exact (observes_workOf moduleName hc).precedes ha p old hold

theorem current_emit (ha : (k.emit d e view b path moduleName).answer = .ok em) :
    ∃ content, (view b.set.origin).content path = some content ∧
      (k.emit d e view b path moduleName).desk.slot.tracker.current path =
        some ⟨em.unit.version, d.ofText content⟩ := by
  rcases emit_eq_or (d := d) (e := e) k view b path moduleName with he | ⟨content, -, hc, he⟩
  · rw [he] at ha
    cases ha
  rw [he] at ha ⊢
  obtain ⟨em', -, -, hu⟩ := exists_of_emitContent ha
  refine ⟨content, hc, ?_⟩
  rw [current_emitContent hc, hu]

/-- What an emit does to the records of its slot and to the tables. -/
structure Onward (D : String → Prop) (d : Digest) (s : Source) (path : String) (k : Desk σ)
    (r : Result σ) : Prop where
  tableFile : r.desk.slot.tableFile = k.slot.tableFile
  counts : k.slot.tracker.Precedes r.desk.slot.tracker
  /-- The tables of other slots stay. -/
  others : ∀ file, Slot.IsTable D file →
    (∀ file' ∈ k.slot.tableFile, Path.names file ≠ Path.names file') →
    Tracker.load r.desk.disk file = Tracker.load k.disk file
  refused : ∀ err, r.answer = .error err → r.desk.disk = k.disk ∧
    (r.desk.slot.tracker = k.slot.tracker ∨ r.desk.slot.tracker.dirty = true)
  /-- The version of an artifact is in the records, with the hash of its content. -/
  current : ∀ em, r.answer = .ok em → ∃ content, s.content path = some content ∧
    r.desk.slot.tracker.current path = some ⟨em.unit.version, d.ofText content⟩
  /-- The table of the slot holds what the slot holds. -/
  saved : ∀ em, r.answer = .ok em → ∀ file ∈ k.slot.tableFile,
    (¬k.slot.tracker.dirty = true → Tracker.load k.disk file = k.slot.tracker) →
      Tracker.load r.desk.disk file = r.desk.slot.tracker

theorem Within.emit (h : k.Within D) (hp : d.Plain) (ha : k.slot.tracker.Ample)
    (hw : k.Writes d e view b path moduleName) :
    k.Onward D d (view b.set.origin) path (k.emit d e view b path moduleName) where
  tableFile := k.tableFile_emit view b path moduleName
  counts := precedes_emit ha view b path moduleName
  others _ hf hne := h.load_emit_of_ne hp hf hne view b path moduleName
  refused _ := emit_of_error
  current _ := current_emit
  saved _ hem _ hf hkept := h.load_emit hp hf hw hkept hem

/-- **No table loses a record or gets a lower version** by an emit, if the records of the slot count
on from what its table says. -/
theorem Onward.precedes {s : Source} {r : Result σ} (h : k.Onward D d s path r) (hk : k.Within D)
    (hdated : ∀ em, r.answer = .ok em → ∀ file ∈ k.slot.tableFile,
      (Tracker.load k.disk file).Precedes k.slot.tracker ∧
        (¬k.slot.tracker.dirty = true → Tracker.load k.disk file = k.slot.tracker))
    (hf : Slot.IsTable D file) :
    (Tracker.load k.disk file).Precedes (Tracker.load r.desk.disk file) := by
  cases ha : r.answer with
  | error err =>
    rw [(h.refused err ha).1]
    exact .refl _
  | ok em =>
    by_cases hne : ∀ file' ∈ k.slot.tableFile, Path.names file ≠ Path.names file'
    · rw [h.others file hf hne]
      exact .refl _
    · obtain ⟨file', hne⟩ := Classical.not_forall.1 hne
      obtain ⟨hf', hn⟩ := Classical.not_imp.1 hne
      obtain ⟨hbefore, hkept⟩ := hdated em ha file' hf'
      obtain ⟨content, -, hcurrent⟩ := h.current em ha
      have hafter := h.saved em ha file' hf' hkept
      rw [← hafter] at hcurrent
      refine (hk.table file' hf').precedes hf (Classical.not_not.1 hn)
        (Slot.byteSize_lt_of_load hcurrent) ?_
      rw [hafter]
      exact hbefore.trans h.counts

end Desk

/-! ## Shelves -/

/-- The trackers of a session, each with the file of its records if they are kept, in the order in
which their slots were made. -/
abbrev Shelf := List (Option String × Tracker)

namespace Shelf

variable {l : Shelf} {i j : Nat} {p q : Option String × Tracker} {disk disk' : Disk} {t : Tracker}

/-- No later tracker has its records in the same file. -/
def Newest (l : Shelf) (i : Nat) : Prop :=
  ∀ (j : Nat) p q, i < j → l[i]? = some p → l[j]? = some q →
    ∀ file ∈ p.1, ∀ file' ∈ q.1, Path.names file' ≠ Path.names file

theorem newest_iff : (∀ p ∈ l[i]?, ∀ q ∈ l.drop (i + 1), ∀ file ∈ p.1, ∀ file' ∈ q.1,
    Path.names file' ≠ Path.names file) ↔ l.Newest i := by
  constructor
  · intro h j p q hj hp hq
    refine h p hp q (List.mem_of_getElem? (i := j - (i + 1)) ?_)
    rw [List.getElem?_drop, Nat.add_sub_cancel' hj]
    exact hq
  · intro h p hp q hq
    obtain ⟨j, hj⟩ := List.getElem?_of_mem hq
    rw [List.getElem?_drop] at hj
    exact h _ p q (by omega) hp hj

instance (l : Shelf) (i : Nat) : Decidable (l.Newest i) := decidable_of_iff _ newest_iff

/-- The newest tracker of each file counts on from what the file says, which is what the tracker
holds if nothing is unsaved. -/
def Dated (disk : Disk) (l : Shelf) : Prop :=
  ∀ (i : Nat) p, l[i]? = some p → l.Newest i → ∀ file ∈ p.1,
    (Tracker.load disk file).Precedes p.2 ∧
      (¬p.2.dirty = true → Tracker.load disk file = p.2)

theorem getElem?_append (h : l[i]? = some p) (m : Shelf) : (l ++ m)[i]? = some p := by
  rw [List.getElem?_append_left (List.getElem?_eq_some_iff.1 h).1]
  exact h

theorem Dated.append (h : l.Dated disk) (hq : ∀ file ∈ q.1, q.2 = Tracker.load disk file) :
    Dated disk (l ++ [q]) := by
  intro i p hi hn file hf
  rcases Nat.lt_or_ge i l.length with hlt | hge
  · rw [List.getElem?_append_left hlt] at hi
    refine h i p hi (fun j p' q' hj hp' hq' => ?_) file hf
    exact hn j p' q' hj (getElem?_append hp' _) (getElem?_append hq' _)
  · rw [List.getElem?_append_right hge] at hi
    obtain rfl : q = p := List.mem_singleton.1 (List.mem_of_getElem? hi) |>.symm
    rw [hq file hf]
    exact ⟨.refl _, fun _ => rfl⟩

theorem getElem?_set (hi : l[i]? = some p) (t : Tracker) (j : Nat) :
    (l.set i (p.1, t))[j]? = if j = i then some (p.1, t) else l[j]? := by
  split
  · next h => rw [h, List.getElem?_set_self (List.getElem?_eq_some_iff.1 hi).1]
  · next h => exact List.getElem?_set_ne (Ne.symm h)

theorem map_fst_set (hi : l[i]? = some p) (t : Tracker) :
    (l.set i (p.1, t)).map Prod.fst = l.map Prod.fst := by
  refine List.ext_getElem? fun j => ?_
  rw [List.getElem?_map, List.getElem?_map, getElem?_set hi]
  split
  · next h => rw [h, hi]; rfl
  · rfl

theorem newest_congr {m : Shelf} (h : m.map Prod.fst = l.map Prod.fst) (hn : m.Newest i) :
    l.Newest i := by
  have hget : ∀ (j : Nat) p, l[j]? = some p → ∃ p', m[j]? = some p' ∧ p'.1 = p.1 := by
    intro j p hp
    have hj := congrArg (·[j]?) h
    rw [List.getElem?_map, List.getElem?_map, hp] at hj
    obtain ⟨p', hp', he⟩ := Option.map_eq_some_iff.1 hj
    exact ⟨p', hp', he⟩
  intro j p q hj hp hq
  obtain ⟨p', hp', hpe⟩ := hget i p hp
  obtain ⟨q', hq', hqe⟩ := hget j q hq
  rw [← hpe, ← hqe]
  exact hn j p' q' hj hp' hq'

theorem Newest.names_ne (hi : l.Newest i) (hj : l.Newest j) (hne : j ≠ i) (hp : l[i]? = some p)
    (hq : l[j]? = some q) : ∀ file ∈ q.1, ∀ file' ∈ p.1, Path.names file ≠ Path.names file' := by
  intro file hf file' hf'
  rcases Nat.lt_or_gt_of_ne hne with hlt | hgt
  · exact (hj i q p hlt hq hp file hf file' hf').symm
  · exact hi j p q hgt hp hq file' hf' file hf

/-- **A shelf stays dated** when a tracker counts on: either nothing is written, or the tracker is
the newest one of its file, and is written to it. -/
theorem Dated.set (h : l.Dated disk) (hi : l[i]? = some p)
    (ht : (disk' = disk ∧ p.2.Precedes t ∧ (¬t.dirty = true → t = p.2)) ∨
      (l.Newest i ∧ ∀ file ∈ p.1, Tracker.load disk' file = t))
    (hothers : ∀ (j : Nat) q, l[j]? = some q → ∀ file ∈ q.1,
      (∀ file' ∈ p.1, Path.names file ≠ Path.names file') →
        Tracker.load disk' file = Tracker.load disk file) :
    Dated disk' (l.set i (p.1, t)) := by
  intro j q hj hn file hf
  have hn' : l.Newest j := newest_congr (map_fst_set hi t) hn
  rw [getElem?_set hi] at hj
  split at hj
  · next hji =>
    subst hji
    cases hj
    rcases ht with ⟨rfl, hpre, hclean⟩ | ⟨-, hload⟩
    · obtain ⟨hle, hkept⟩ := h j p hi hn' file hf
      refine ⟨hle.trans hpre, fun hd => ?_⟩
      have hsame := hclean hd
      change Tracker.load disk' file = t
      rw [hsame] at hd ⊢
      exact hkept hd
    · rw [hload file hf]
      exact ⟨.refl _, fun _ => rfl⟩
  · next hji =>
    rcases ht with ⟨rfl, -, -⟩ | ⟨hnew, -⟩
    · exact h j q hj hn' file hf
    · rw [hothers j q hj file hf (hnew.names_ne hn' hji hi hj file hf)]
      exact h j q hj hn' file hf

theorem set_self (hi : l[i]? = some p) : l.set i p = l := by
  obtain ⟨hlt, rfl⟩ := List.getElem?_eq_some_iff.1 hi
  exact List.set_getElem_self hlt

end Shelf

/-! ## Sessions -/

namespace Session

variable {s : Session σ} {disk disk' : Disk} {w : World} {b : Build} {path : String}
  {moduleName : Option String} {slot : Slot σ} {i : Nat}

/-- The trackers of a session with their files. -/
def shelf (s : Session σ) : Shelf := s.slots.map fun slot => (slot.tableFile, slot.tracker)

/-- The files of the records of all slots. -/
def tables (s : Session σ) : List (Option String) := s.shelf.map Prod.fst

/-- A session whose tables are in some cache directories, and whose newest trackers count on from
what their files say. -/
structure Tabled (D : String → Prop) (disk : Disk) (s : Session σ) : Prop where
  bound : ∀ directory ∈ s.cache.directory, D directory
  tables : ∀ p ∈ s.shelf, ∀ file ∈ p.1, Slot.IsTable D file
  dated : s.shelf.Dated disk

theorem getElem?_shelf (hi : s.slots[i]? = some slot) :
    s.shelf[i]? = some (slot.tableFile, slot.tracker) := by
  unfold shelf
  rw [List.getElem?_map, hi]
  rfl

theorem getElem?_tables (hi : s.slots[i]? = some slot) : s.tables[i]? = some slot.tableFile := by
  unfold tables
  rw [List.getElem?_map, getElem?_shelf hi]
  rfl

theorem shelf_put (s : Session σ) (i : Nat) (slot : Slot σ) (cache : Cache) :
    (s.put i slot cache).shelf = s.shelf.set i (slot.tableFile, slot.tracker) := List.map_set

theorem Tabled.new (cache : Cache) (h : ∀ directory ∈ cache.directory, D directory) (disk : Disk) :
    (Session.new cache : Session σ).Tabled D disk where
  bound := h
  tables p hp := absurd hp List.not_mem_nil
  dated i p hi := by cases i <;> cases hi

theorem Tabled.isTable (h : s.Tabled D disk) {table : Option String} {file : String}
    (ht : s.tables[i]? = some table) (hf : file ∈ table) : Slot.IsTable D file := by
  unfold Session.tables at ht
  rw [List.getElem?_map] at ht
  obtain ⟨p, hp, rfl⟩ := Option.map_eq_some_iff.1 ht
  exact h.tables p (List.mem_of_getElem? hp) file hf

theorem Tabled.of_shelf (h : s.Tabled D disk) {s' : Session σ} (hs : s'.shelf = s.shelf)
    (hb : ∀ directory ∈ s'.cache.directory, D directory) : s'.Tabled D disk where
  bound := hb
  tables := hs ▸ h.tables
  dated := hs ▸ h.dated

/-- **Sessions stay so whatever happens to other files.** -/
theorem Tabled.of_agrees (h : s.Tabled D disk)
    (ha : ∀ directory, D directory → disk.Agrees disk' directory) : s.Tabled D disk' where
  bound := h.bound
  tables := h.tables
  dated i p hi hn file hf := by
    obtain ⟨directory, arch, hd, harch, rfl⟩ := h.tables p (List.mem_of_getElem? hi) file hf
    rw [Tracker.load_congr ((ha directory hd).table harch)]
    exact h.dated i p hi hn _ hf

theorem cache_registerFiles (s : Session σ) (disk : Disk) (set : WorkingSet) :
    (s.registerFiles e disk set).2.1.cache = s.cache := by
  unfold registerFiles slotFor
  cases s.placed? set.options.arch <;> rfl

/-- A registration makes no tracker, or one that is loaded from its file. -/
theorem shelf_registerFiles (s : Session σ) (disk : Disk) (set : WorkingSet) :
    (s.registerFiles e disk set).2.1.shelf = s.shelf ∨
      ∃ q, (s.registerFiles e disk set).2.1.shelf = s.shelf ++ [q] ∧
        q.1 = s.cache.directory.map (Slot.tablePath · set.options.arch) ∧
        ∀ file ∈ q.1, q.2 = Tracker.load disk file := by
  unfold registerFiles slotFor
  cases hp : s.placed? set.options.arch with
  | some p =>
    have hi := getElem?_shelf (getElem?_of_placed? hp)
    exact .inl ((s.shelf_put p.1 (p.2.register e set) s.cache).trans (Shelf.set_self hi))
  | none =>
    refine .inr ⟨((Slot.new e disk s.cache.directory set.options.arch).tableFile,
      (Slot.new e disk s.cache.directory set.options.arch).tracker), ?_, rfl, fun file hf => ?_⟩
    · have hi := getElem?_shelf (s.getElem?_addSlot e disk set.options.arch)
      refine ((s.addSlot e disk set.options.arch).2.2.1.shelf_put s.slots.length
        ((Slot.new e disk s.cache.directory set.options.arch).register e set) s.cache).trans ?_
      exact (Shelf.set_self hi).trans List.map_append
    · obtain ⟨directory, hd, rfl⟩ := Option.map_eq_some_iff.1 hf
      change ((s.cache.directory.map _).getD _) = _
      rw [hd]
      rfl

/-- **Registering keeps a session up to date.** -/
theorem Tabled.registerFiles (h : s.Tabled D disk) {set : WorkingSet}
    (harch : '/' ∉ set.options.arch.toList) :
    (s.registerFiles e disk set).2.1.Tabled D disk ∧
      s.tables <+: (s.registerFiles e disk set).2.1.tables := by
  have hbound : ∀ directory ∈ (s.registerFiles e disk set).2.1.cache.directory, D directory := by
    rw [s.cache_registerFiles]
    exact h.bound
  rcases s.shelf_registerFiles (e := e) disk set with hs | ⟨q, hs, hq, hload⟩
  · have htables : (s.registerFiles e disk set).2.1.tables = s.tables :=
      congrArg (·.map Prod.fst) hs
    exact ⟨h.of_shelf hs hbound, htables ▸ List.prefix_refl _⟩
  · refine ⟨⟨hbound, fun p hp file hf => ?_, ?_⟩, ?_⟩
    · rw [hs] at hp
      rcases List.mem_append.1 hp with hp | hp
      · exact h.tables p hp file hf
      · rw [List.mem_singleton.1 hp, hq] at hf
        obtain ⟨directory, hd, rfl⟩ := Option.map_eq_some_iff.1 hf
        exact ⟨directory, _, h.bound directory hd, harch, rfl⟩
    · rw [hs]
      exact h.dated.append hload
    · unfold Session.tables
      rw [hs, List.map_append]
      exact List.prefix_append _ _

theorem directory_bind (s : Session σ) (directory : String) :
    ∀ dir ∈ (s.bind directory).2.cache.directory, dir ∈ s.cache.directory ∨ dir = directory := by
  unfold Session.bind Cache.bind
  split
  · exact fun dir => .inl
  · next hb =>
    split at hb
    · cases hb
    · cases hb
      exact fun dir hd => .inr (Option.some.inj hd).symm

theorem shelf_bind (s : Session σ) (directory : String) : (s.bind directory).2.shelf = s.shelf := by
  unfold Session.bind
  split <;> rfl

/-! ## Emits of sessions -/

/-- An emit in order: its files are written, no version in its slot is the greatest there is, and if
it answers then no later slot has its records in the same file. -/
structure Regular (d : Digest) (e : Engine σ) (s : Session σ) (w : World) (b : Build)
    (path : String) (moduleName : Option String) : Prop where
  writes : s.Writes d e w b path moduleName
  ample : ∀ slot, s.slots[b.slot]? = some slot → slot.tracker.Ample
  newest : ∀ em, (s.emit d e w b path moduleName).answer = .ok em → s.shelf.Newest b.slot

theorem regular_iff : (s.Writes d e w b path moduleName ∧
    (∀ slot ∈ s.slots[b.slot]?, slot.tracker.Ample) ∧
    ((s.emit d e w b path moduleName).answer.toOption.isSome = true → s.shelf.Newest b.slot)) ↔
      s.Regular d e w b path moduleName := by
  constructor
  · rintro ⟨hw, ha, hn⟩
    exact ⟨hw, ha, fun em h => hn (by rw [h]; rfl)⟩
  · rintro ⟨hw, ha, hn⟩
    refine ⟨hw, ha, fun h => ?_⟩
    obtain ⟨em, hem⟩ := Option.isSome_iff_exists.1 h
    exact hn em (ok_of_toOption hem)

instance (s : Session σ) (w : World) (b : Build) (path : String) (moduleName : Option String) :
    Decidable (s.Regular d e w b path moduleName) := decidable_of_iff _ regular_iff

/-- An emission of a content is in the table of its slot, if that has one. -/
def Recorded (d : Digest) (tables : List (Option String)) (disk : Disk) (s : Source) (b : Build)
    (path : String) (em : Emission) : Prop :=
  ∃ content table, s.content path = some content ∧ tables[b.slot]? = some table ∧
    ∀ file ∈ table, (Tracker.load disk file).current path =
      some ⟨em.unit.version, d.ofText content⟩

theorem Tabled.within (h : s.Tabled D disk) (ho : ∀ directory, D directory → disk.Orderly directory)
    (hi : s.slots[i]? = some slot) : Desk.Within D ⟨slot, s.cache, disk⟩ where
  orderly := ho
  bound := h.bound
  table := h.tables _ (List.mem_of_getElem? (getElem?_shelf hi))

/-- What an emit in order leaves: up-to-date trackers of the same files, tables without lost records
and lower versions, and the emission in the table of its slot. -/
structure Advances (D : String → Prop) (d : Digest) (s : Session σ) (w : World) (b : Build)
    (path : String) (r : Result σ) : Prop where
  tabled : r.session.Tabled D r.disk
  tables : r.session.tables = s.tables
  precedes : ∀ file, Slot.IsTable D file →
    (Tracker.load w.disk file).Precedes (Tracker.load r.disk file)
  recorded : ∀ em, r.answer = .ok em →
    Recorded d s.tables r.disk (b.set.origin.source w) b path em

/-- **An emit in order counts on**: it keeps the session up to date, no table loses a record or gets
a lower version, and the emission is in the table of its slot. -/
theorem Tabled.emit (h : s.Tabled D w.disk) (hp : d.Plain)
    (ho : ∀ directory, D directory → w.disk.Orderly directory)
    (hr : s.Regular d e w b path moduleName) :
    s.Advances D d w b path (s.emit d e w b path moduleName) := by
  cases hi : s.slots[b.slot]? with
  | none =>
    unfold Session.emit
    rw [hi]
    exact ⟨h, rfl, fun _ _ => .refl _, fun em ha => by cases ha⟩
  | some slot =>
    have hnewest := hr.newest
    have hwithin := h.within ho hi
    have hplace := getElem?_shelf hi
    have hon := hwithin.emit (e := e) hp (hr.ample slot hi) (hr.writes slot hi)
    have hdirectory := Desk.directory_emit (d := d) (e := e) ⟨slot, s.cache, w.disk⟩
      (Origin.source w) b path moduleName
    rw [emit_eq_put hi] at hnewest ⊢
    generalize Desk.emit d e ⟨slot, s.cache, w.disk⟩ (Origin.source w) b path moduleName = r at *
    have hshelf : (s.put b.slot r.desk.slot r.desk.cache).shelf =
        s.shelf.set b.slot (slot.tableFile, r.desk.slot.tracker) := by
      rw [shelf_put, hon.tableFile]
    have hdated := fun em ha => h.dated b.slot _ hplace (hnewest em ha)
    -- a failure writes nothing, and an answer comes from the newest tracker of its file
    have hends : (r.desk.disk = w.disk ∧ slot.tracker.Precedes r.desk.slot.tracker ∧
          (¬r.desk.slot.tracker.dirty = true → r.desk.slot.tracker = slot.tracker)) ∨
        (s.shelf.Newest b.slot ∧ ∀ file ∈ slot.tableFile,
          Tracker.load r.desk.disk file = r.desk.slot.tracker) := by
      cases ha : r.answer with
      | error err =>
        obtain ⟨hdisk, htracker⟩ := hon.refused err ha
        exact .inl ⟨hdisk, hon.counts, htracker.resolve_right⟩
      | ok em =>
        exact .inr ⟨hnewest em ha, fun file hf => hon.saved em ha file hf (hdated em ha file hf).2⟩
    refine ⟨⟨fun directory hd => ?_, fun p hmem file hf => ?_, ?_⟩, ?_, fun file hf => ?_,
      fun em ha => ?_⟩
    · exact h.bound directory (hdirectory ▸ hd)
    · rw [hshelf] at hmem
      rcases List.mem_or_eq_of_mem_set hmem with hmem | rfl
      · exact h.tables p hmem file hf
      · exact hwithin.table file hf
    · rw [hshelf]
      exact h.dated.set hplace hends fun j q hj file hf =>
        hon.others file (h.tables q (List.mem_of_getElem? hj) file hf)
    · unfold Session.tables
      rw [hshelf]
      exact Shelf.map_fst_set hplace _
    · exact hon.precedes hwithin hdated hf
    · obtain ⟨content, hc, hcurrent⟩ := hon.current em ha
      refine ⟨content, slot.tableFile, hc, getElem?_tables hi, fun file hf => ?_⟩
      rw [← hon.saved em ha file hf (hdated em ha file hf).2] at hcurrent
      exact hcurrent

end Session

end CompileCache
