import CompileCache.Artifact.Basic
import CompileCache.Digest.Basic
import CompileCache.Source.Basic

/-!
# Tracker — a version for each content of a path

* `Tracker`: the last stamp of every path that was observed, and whether that is saved.
* `Tracker.stamp`: observes a content. The version is one at first, and grows by one whenever the
  hash of the content differs from the last one; `stamp_fst`, `current_stamp`.
* `Tracker.observe`, `Tracker.observeEach`: observe what a source holds at a path, or at several.
-/

namespace CompileCache

/-- The last stamp of every path that was observed. -/
structure Tracker where
  records : KeyMap Stamp
  /-- Whether the records differ from the saved ones. -/
  dirty : Bool
deriving DecidableEq

namespace Tracker

/-- The tracker that has observed nothing. -/
def empty : Tracker := ⟨.empty, false⟩

instance : Inhabited Tracker := ⟨empty⟩

/-- The last stamp of a path. -/
def current (t : Tracker) (path : String) : Option Stamp := t.records.get? path

/-- The stamp of a content with this hash, behind the last stamp. -/
def next (hash : String) : Option Stamp → Stamp
  | none => ⟨1, hash⟩
  | some last => if last.hash = hash then last else ⟨last.version + 1, hash⟩

variable (d : Digest)

/-- Observes the content of a path. -/
def stamp (t : Tracker) (path content : String) : Stamp × Tracker :=
  let last := t.current path
  let new := next (d.ofText content) last
  if last = some new then (new, t) else (new, ⟨t.records.insert path new, true⟩)

/-- Observes the content of a path, for its version. -/
def version (t : Tracker) (path content : String) : UInt64 × Tracker :=
  let r := t.stamp d path content
  (r.1.version, r.2)

/-- Observes what a source holds at a path; a path without content leaves no trace. -/
def observe (t : Tracker) (s : Source) (path : String) : Stamp × Tracker :=
  match s.content path with
  | none => (.missing, t)
  | some content => t.stamp d path content

/-- Observes what a source holds at some paths, in order. -/
def observeEach (t : Tracker) (s : Source) : List String → List (String × Stamp) × Tracker
  | [] => ([], t)
  | path :: rest =>
    let (new, t₁) := t.observe d s path
    let (others, t₂) := t₁.observeEach s rest
    ((path, new) :: others, t₂)

/-- Stamps the members of a set. -/
def stampAll (t : Tracker) (s : Source) (paths : KeySet) : KeyMap Stamp × Tracker :=
  let (stamps, t') := t.observeEach d s paths.toList
  (.ofList stamps, t')

/-! ## What observing does -/

variable {d}

theorem stamp_fst (t : Tracker) (path content : String) :
    (t.stamp d path content).1 = next (d.ofText content) (t.current path) := by
  unfold stamp; dsimp only; split <;> rfl

theorem current_stamp (t : Tracker) (path content p : String) :
    (t.stamp d path content).2.current p =
      if p = path then some (next (d.ofText content) (t.current path)) else t.current p := by
  unfold stamp
  dsimp only
  split
  · next h =>
    split
    · next e => subst e; exact h
    · rfl
  · simp [current, KeyMap.get?_insert]

@[simp] theorem hash_next (hash : String) (last : Option Stamp) : (next hash last).hash = hash := by
  unfold next; split
  · rfl
  · split <;> simp_all

end Tracker

end CompileCache
