import CompileCache.Proofs.Mini.Footprint
import CompileCache.Proofs.Source.Worklist
import Mathlib.Order.Bounds.Basic

/-!
# Typings — the files that the typings roots lead to by references

* `Spans`: a set holds the roots, and what the references mean of its files with content.
* **`typings_exact`**: looking at one path after the other comes to an end in every order, and
  always with the same set. It is the smallest that spans the roots, so it does not matter in which
  order the roots stand, and how often.
* `typings_exact_ring`: roots without content and twice the same, in a ring of references.
-/

namespace CompileCache.Mini

variable {s : Source} {roots : List String}

/-- A set holds the roots, and with each file that has content the paths that its references
mean. -/
structure Spans (s : Source) (roots : List String) (t : Set String) : Prop where
  roots : ∀ r ∈ roots, r ∈ t
  references : ∀ file ∈ t, ∀ p, program? s file = some p → ∀ path,
    .reference path ∈ p.statements → joinRelative file path ∈ t

theorem mem_references {file content q : String} : q ∈ references file content ↔
    ∃ path, .reference path ∈ (Program.read content).statements ∧ joinRelative file path = q := by
  rw [references, List.mem_filterMap]
  constructor
  · rintro ⟨x, hx, hq⟩
    cases x with
    | reference path => exact ⟨path, hx, Option.some.inj hq⟩
    | _ => cases hq
  · rintro ⟨path, hx, rfl⟩
    exact ⟨_, hx, rfl⟩

/-- A set spans the roots if it holds what they lead to in one step after the other. -/
theorem spans_iff {t : Set String} : Spans s roots t ↔ (∀ r ∈ roots, r ∈ t) ∧
    ∀ file ∈ t, ∀ content, s.content file = some content →
      ∀ q ∈ references file content, q ∈ t := by
  constructor
  · intro h
    refine ⟨h.roots, fun file hfile content hc q hq => ?_⟩
    obtain ⟨path, hx, rfl⟩ := mem_references.1 hq
    exact h.references file hfile _ (Option.map_eq_some_iff.2 ⟨content, hc, rfl⟩) path hx
  · rintro ⟨hroots, hclosed⟩
    refine ⟨hroots, fun file hfile p hp path hx => ?_⟩
    obtain ⟨content, hc, rfl⟩ := Option.map_eq_some_iff.1 hp
    exact hclosed file hfile content hc _ (mem_references.2 ⟨path, hx, rfl⟩)

/-- The typings are the smallest set that spans the roots. -/
theorem isLeast_typings (s : Source) (roots : List String) :
    IsLeast {t : Set String | Spans s roots t} {q | q ∈ typingsClosure s roots} := by
  constructor
  · exact spans_iff.2 ⟨fun r hr => Source.root_mem_closure hr,
      fun file hfile content hc q hq => Source.closed_closure hfile hc hq⟩
  · intro t ht q hq
    obtain ⟨hroots, hclosed⟩ := spans_iff.1 ht
    obtain ⟨r, hr, hreach⟩ := Source.mem_closure.1 hq
    have hrt : r ∈ t := hroots r hr
    clear hr hq
    induction hreach with
    | refl => exact hrt
    | step hc hq _ ih => exact ih (hclosed _ hrt _ hc _ hq)

theorem typingsClosure_congr {roots' : List String} (h : ∀ r, r ∈ roots' ↔ r ∈ roots) :
    typingsClosure s roots' = typingsClosure s roots := by
  refine KeySet.ext_mem fun q => ?_
  unfold typingsClosure
  simp only [Source.mem_closure, h]

/-- **The search for typings ends, and is exact.** However often and in whatever order the pending
paths are looked at, there is an end, and what is reached then is the same set. It is the smallest
one with the roots that holds for each of its files with content what the references mean, and does
not depend on the order of the roots or on how often they stand there. -/
theorem typings_exact (s : Source) (roots : List String) :
    WellFounded (fun w' w => s.Works references w w') ∧
    (∀ w, Relation.ReflTransGen (s.Works references) ⟨.empty, roots⟩ w ∧
      (∀ w', ¬s.Works references w w') ↔ w = ⟨typingsClosure s roots, []⟩) ∧
    IsLeast {t : Set String | Spans s roots t} {q | q ∈ typingsClosure s roots} ∧
    ∀ roots', (∀ r, r ∈ roots' ↔ r ∈ roots) →
      typingsClosure s roots' = typingsClosure s roots :=
  ⟨Source.wellFounded_works s references, fun _ => Source.works_end_iff, isLeast_typings s roots,
    fun _ => typingsClosure_congr⟩

/-! ## A ring -/

/-- A file that refers to itself and to a second one, which refers back and to a file that is not
there. -/
def ringTypings : Source := .ofTable (.ofList [
  ("lib/a.d.ts", "/// <reference path=\"a.d.ts\" />\n/// <reference path=\"../b.d.ts\" />"),
  ("b.d.ts", "/// <reference path=\"gone.d.ts\" />\n/// <reference path=\"./lib/a.d.ts\" />")])

/-- The ring, the file that only a reference means, and a root that is not there. -/
def ringPaths : List String := ["b.d.ts", "gone.d.ts", "lib/a.d.ts", "none.d.ts"]

theorem spans_ring : Spans ringTypings ["b.d.ts", "none.d.ts"] {q | q ∈ ringPaths} := by
  have hclosed : ∀ file ∈ ringPaths, ∀ content ∈ ringTypings.content file,
      ∀ q ∈ references file content, q ∈ ringPaths := by decide +kernel
  exact spans_iff.2 ⟨by decide, fun file hfile content hc => hclosed file hfile content hc⟩

/-- With either list of roots the same files are reached, those without content included. -/
theorem typings_exact_ring :
    typingsClosure ringTypings ["none.d.ts", "b.d.ts", "b.d.ts"] =
      typingsClosure ringTypings ["b.d.ts", "none.d.ts"] ∧
    ∀ q, q ∈ typingsClosure ringTypings ["b.d.ts", "none.d.ts"] ↔ q ∈ ringPaths := by
  obtain ⟨-, -, ⟨hspans, hleast⟩, hroots⟩ := typings_exact ringTypings ["b.d.ts", "none.d.ts"]
  refine ⟨hroots _ (by simp [or_comm]), fun q => ⟨fun hq => hleast spans_ring hq, fun hq => ?_⟩⟩
  have hb : "b.d.ts" ∈ typingsClosure ringTypings ["b.d.ts", "none.d.ts"] :=
    hspans.roots _ (by decide)
  simp only [ringPaths, List.mem_cons, List.not_mem_nil, or_false] at hq
  rcases hq with rfl | rfl | rfl | rfl
  · exact hb
  · exact hspans.references _ hb _ rfl "gone.d.ts" (by decide +kernel)
  · exact hspans.references _ hb _ rfl "./lib/a.d.ts" (by decide +kernel)
  · exact hspans.roots _ (by decide)

end CompileCache.Mini
