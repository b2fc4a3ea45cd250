import CompileCache.Tracker.Table

/-!
# Run — what happens to a tracker, call by call

* `Tracker.Submission`: a content that is submitted for a path, for its version or for its stamp.
* `Tracker.submit`, `Tracker.submitAll`: a tracker after one submission, and after a list of them.
* `Tracker.Call`: a submission, or a question for the last stamp of a path. `Tracker.replies`: what
  a tracker answers to a list of calls.
* `Tracker.Act`: a submission, or something that has to do with the file of the records.
* **`Tracker.Site.step`**, `Tracker.Site.run`: one act, and a list of acts, of a tracker and the
  disk that it is saved on.
-/

namespace CompileCache.Tracker

/-- A content that is submitted for a path. -/
inductive Submission where
  | version (path content : String)
  | stamp (path content : String)

namespace Submission

/-- The path that a content is submitted for. -/
def path : Submission → String
  | .version path _ | .stamp path _ => path

/-- The content that is submitted. -/
def content : Submission → String
  | .version _ content | .stamp _ content => content

end Submission

/-- A call of a tracker. -/
inductive Call where
  | submit (x : Submission)
  /-- Asks for the last stamp of a path. -/
  | current (path : String)

/-- What a call answers. -/
inductive Reply where
  | version (version : UInt64)
  | stamp (stamp : Stamp)
  | current (stamp : Option Stamp)
deriving DecidableEq

/-- What can happen to a tracker and to the disk that it is saved on. -/
inductive Act where
  | submit (x : Submission)
  | save (file : String)
  /-- The tracker of a file takes the place of the old one. -/
  | load (file : String)
  /-- Somebody changes the disk, in whatever way. -/
  | change (disk : Disk)

/-- A tracker and the disk that it is saved on. -/
structure Site where
  tracker : Tracker
  disk : Disk

variable (d : Digest)

/-- The tracker after a submission. -/
def submit (t : Tracker) : Submission → Tracker
  | .version path content => (t.version d path content).2
  | .stamp path content => (t.stamp d path content).2

/-- The tracker after a list of submissions. -/
def submitAll (t : Tracker) (l : List Submission) : Tracker := l.foldl (submit d) t

/-- What a tracker answers to a call. -/
def reply (t : Tracker) : Call → Reply
  | .submit (.version path content) => .version (t.version d path content).1
  | .submit (.stamp path content) => .stamp (t.stamp d path content).1
  | .current path => .current (t.current path)

/-- The tracker after a call. -/
def after (t : Tracker) : Call → Tracker
  | .submit x => t.submit d x
  | .current _ => t

/-- What a tracker answers to a list of calls. -/
def replies (t : Tracker) : List Call → List Reply
  | [] => []
  | c :: rest => t.reply d c :: (t.after d c).replies rest

namespace Site

/-- **One act.** -/
def step (s : Site) : Act → Site
  | .submit x => { s with tracker := s.tracker.submit d x }
  | .save file =>
    let saved := s.tracker.save s.disk file
    ⟨saved.1, saved.2.1⟩
  | .load file => { s with tracker := load s.disk file }
  | .change disk => { s with disk }

/-- The tracker and the disk after a list of acts. -/
def run (s : Site) (acts : List Act) : Site := acts.foldl (step d) s

end Site

end CompileCache.Tracker
