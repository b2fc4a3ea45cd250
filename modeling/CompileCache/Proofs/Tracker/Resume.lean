import CompileCache.Proofs.Tracker.Law

/-!
# Resume — a tracker that goes on from its file

* `Tracker.records_after`, `Tracker.reply_of_records`, **`Tracker.replies_of_records`**: what a
  tracker answers is told by its records, the mark left aside.
* **`Tracker.resumes`**: after a save, what is loaded has the same records and no mark, and answers
  every list of calls as the tracker that was saved. A file without a table is loaded as the empty
  tracker.
* `Tracker.awkward`: records with a path that has to be escaped and with the largest version.
-/

namespace CompileCache.Tracker

variable {d : Digest} {t u : Tracker}

theorem records_stamp (h : t.records = u.records) (path content : String) :
    (t.stamp d path content).2.records = (u.stamp d path content).2.records := by
  refine KeyMap.ext_get? fun p => ?_
  have hcurrent : ∀ q, t.current q = u.current q := fun q => by rw [current, current, h]
  change (t.stamp d path content).2.current p = (u.stamp d path content).2.current p
  rw [current_stamp, current_stamp, hcurrent, hcurrent]

theorem records_after (h : t.records = u.records) (c : Call) :
    (t.after d c).records = (u.after d c).records := by
  cases c with
  | current => exact h
  | submit x =>
    change (t.submit d x).records = (u.submit d x).records
    rw [submit_eq, submit_eq, records_stamp h]

theorem reply_of_records (h : t.records = u.records) (c : Call) : t.reply d c = u.reply d c := by
  have hcurrent : ∀ path, t.current path = u.current path := fun path => by
    rw [current, current, h]
  have hstamp : ∀ path content, (t.stamp d path content).1 = (u.stamp d path content).1 :=
    fun path content => by rw [stamp_fst, stamp_fst, hcurrent]
  cases c with
  | current path => exact congrArg Reply.current (hcurrent path)
  | submit x =>
    cases x with
    | version path content => exact congrArg (Reply.version ·.version) (hstamp path content)
    | stamp path content => exact congrArg Reply.stamp (hstamp path content)

/-- **Trackers with the same records answer every list of calls alike.** -/
theorem replies_of_records (h : t.records = u.records) (calls : List Call) :
    t.replies d calls = u.replies d calls := by
  induction calls generalizing t u with
  | nil => rfl
  | cons c calls ih =>
    rw [replies, replies, reply_of_records h, ih (records_after h c)]

theorem save_eq_saved {disk : Disk} {file : String} (h : (t.save disk file).2.2 = .ok ()) :
    (t.save disk file).1 = t.saved := by
  rw [save_fst, h]
  rfl

theorem load_save {disk : Disk} {file : String} (h : (t.save disk file).2.2 = .ok ()) :
    load (t.save disk file).2.1 file = t.saved := by
  unfold save at h ⊢
  have hload : (disk.writeUnder file (.ofText t.text)).2 = .ok () →
      load (disk.writeUnder file (.ofText t.text)).1 file = t.saved := load_writeUnder
  revert h hload
  generalize disk.writeUnder file (.ofText t.text) = written
  obtain ⟨disk', answer⟩ := written
  cases answer with
  | error => nofun
  | ok => exact fun _ hload => hload rfl

/-- **A tracker goes on from its file as if it had never stopped.** A file that is missing, or that
holds anything but a table, gives the empty tracker. -/
theorem resumes (d : Digest) (disk : Disk) (file : String) :
    (∀ t : Tracker, (t.save disk file).2.2 = .ok () →
      load (t.save disk file).2.1 file = (t.save disk file).1 ∧
      (load (t.save disk file).2.1 file).records = t.records ∧
      (load (t.save disk file).2.1 file).dirty = false ∧
      ∀ calls, (load (t.save disk file).2.1 file).replies d calls = t.replies d calls) ∧
    (load disk file).dirty = false ∧
    (∀ f, disk.readText file = .error f → load disk file = .empty) ∧
    (∀ s, disk.readText file = .ok s → ofText? s = none → load disk file = .empty) := by
  refine ⟨fun t hsave => ?_, dirty_load disk file, fun f hread => ?_, fun s hread htext => ?_⟩
  · rw [load_save hsave, save_eq_saved hsave]
    exact ⟨rfl, rfl, rfl, replies_of_records rfl⟩
  · rw [load, hread]
  · rw [load, hread]
    change (ofText? s).getD .empty = _
    rw [htext]
    rfl

/-! ## Awkward records -/

/-- A path with a quote, a backslash, control characters and letters beyond ASCII, at the largest
version. -/
def awkward : Tracker :=
  ⟨.ofList [("a\"\\\n\x00\x7fä𝔸.ts", ⟨18446744073709551615, "-x"⟩), ("", ⟨1, ""⟩)], true⟩

/-- Calls about the awkward records: one path as it is recorded, and one with another content. -/
def awkwardCalls : List Call :=
  [.submit (.version "a\"\\\n\x00\x7fä𝔸.ts" "x"), .current "", .submit (.stamp "" "y"), .current ""]

/-- The awkward records are saved, loaded and counted on. A text that is no table is loaded as the
empty tracker, and so is a file that is not there. -/
theorem resumes_awkward :
    (awkward.save .empty "v/os.json").2.2 = .ok () ∧
    (load (awkward.save .empty "v/os.json").2.1 "v/os.json").records = awkward.records ∧
    (load (awkward.save .empty "v/os.json").2.1 "v/os.json").replies .letters awkwardCalls =
      [.version 18446744073709551615, .current (some ⟨1, ""⟩), .stamp ⟨2, "-y"⟩,
        .current (some ⟨2, "-y"⟩)] ∧
    load (Disk.empty.writeUnder "os.json" (.ofText "[1")).1 "os.json" = .empty ∧
    load .empty "os.json" = .empty := by
  have hsave : (awkward.save .empty "v/os.json").2.2 = .ok () := by decide +kernel
  obtain ⟨-, hrecords, -, hreplies⟩ := (resumes .letters .empty "v/os.json").1 awkward hsave
  refine ⟨hsave, hrecords, (hreplies awkwardCalls).trans (by decide +kernel), ?_, ?_⟩
  · exact (resumes .letters _ "os.json").2.2.2 "[1" (by decide +kernel) (by decide +kernel)
  · exact (resumes .letters .empty "os.json").2.2.1 .notFound (by decide +kernel)

end CompileCache.Tracker
