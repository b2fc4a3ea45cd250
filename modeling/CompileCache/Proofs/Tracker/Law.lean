import CompileCache.Proofs.Digest.Plain
import CompileCache.Proofs.Tracker.Precedes
import CompileCache.Tracker.Run
import Mathlib.Data.Finset.Card
import Mathlib.Data.List.SplitBy

/-!
# Law — versions count changes, and the mark tells what is unsaved

* `blocks`: how many blocks of equal neighbours a list has; `blocks_concat`.
* `Tracker.submitted`, `Tracker.earned`: the contents that were submitted for a path, and the stamp
  that these have earned. **`Tracker.current_submitAll`**: a new tracker has exactly these stamps.
* `Tracker.Site.settled`: the records as they were last loaded or saved. `Tracker.fits`,
  `Tracker.Site.fitsAll`: acts that make no version wrap around.
* `Tracker.Marks`, **`Tracker.Marks.submit`**: a tracker with a mark has counted on beyond the
  settled records.
* **`Tracker.law`**: what a new tracker answers after any calls, and when it is marked.
-/

namespace CompileCache

/-- A digest tells the texts of a list apart. -/
def Digest.TellsApart (d : Digest) (l : List String) : Prop :=
  ∀ c ∈ l, ∀ c' ∈ l, d.Separates c.toUTF8 c'.toUTF8

theorem Digest.TellsApart.mono {d : Digest} {l l' : List String} (h : d.TellsApart l)
    (hl : ∀ c ∈ l', c ∈ l) : d.TellsApart l' := fun c hc c' hc' => h c (hl c hc) c' (hl c' hc')

/-! ## Blocks of equal contents -/

/-- How many blocks of equal neighbours a list has. -/
def blocks (l : List String) : Nat := (l.splitBy (· == ·)).length

theorem length_splitBy_loop {α : Type} (r : α → α → Bool) (l : List α) (a : α) (g : List α)
    (gs : List (List α)) : (List.splitBy.loop r l a g gs).length =
      gs.length + (List.splitBy.loop r l a [] []).length := by
  induction l generalizing a g gs with
  | nil => simp [List.splitBy.loop]
  | cons b l ih =>
    simp only [List.splitBy.loop]
    cases r a b with
    | true =>
      dsimp only
      rw [ih b (a :: g) gs, ih b [a] [], List.length_nil, Nat.zero_add]
    | false =>
      dsimp only
      rw [ih b [] ((a :: g).reverse :: gs), ih b [] [[a].reverse]]
      simp only [List.length_cons, List.length_nil]
      omega

theorem blocks_cons_cons (a b : String) (l : List String) :
    blocks (a :: b :: l) = if a = b then blocks (b :: l) else blocks (b :: l) + 1 := by
  change (List.splitBy.loop _ (b :: l) a [] []).length =
    if a = b then (List.splitBy.loop _ l b [] []).length
    else (List.splitBy.loop _ l b [] []).length + 1
  rw [List.splitBy.loop]
  by_cases hab : a = b
  · rw [if_pos hab, beq_iff_eq.2 hab]
    exact (length_splitBy_loop _ l b [a] []).trans (Nat.zero_add _)
  · rw [if_neg hab, beq_false_of_ne hab]
    exact (length_splitBy_loop _ l b [] _).trans (Nat.add_comm _ _)

/-- **A content begins a block unless it is the last one of the list.** -/
theorem blocks_concat (l : List String) (a : String) :
    blocks (l ++ [a]) = if l.getLast? = some a then blocks l else blocks l + 1 := by
  induction l with
  | nil => rfl
  | cons b l ih =>
    cases l with
    | nil =>
      change blocks [b, a] = _
      rw [blocks_cons_cons]
      by_cases hba : b = a <;> simp [hba, blocks, List.splitBy, List.splitBy.loop]
    | cons c l =>
      have hlast : (b :: c :: l).getLast? = (c :: l).getLast? := List.getLast?_cons_cons
      change blocks (b :: c :: (l ++ [a])) = _
      rw [blocks_cons_cons, blocks_cons_cons, hlast]
      rw [List.cons_append] at ih
      rw [ih]
      split <;> split <;> rfl

namespace Tracker

/-! ## Stamps of a new tracker -/

/-- The contents that were submitted for a path, in order. -/
def submitted (path : String) (l : List Submission) : List String :=
  (l.filter fun x => x.path = path).map Submission.content

variable (d : Digest)

/-- The stamp that a list of contents earns. -/
def earned (l : List String) : Option Stamp :=
  l.getLast?.map fun content => ⟨.ofNat (blocks l), d.ofText content⟩

variable {d} {t : Tracker} {x : Submission}

theorem submit_eq (t : Tracker) (x : Submission) :
    t.submit d x = (t.stamp d x.path x.content).2 := by
  cases x <;> rfl

theorem submitAll_concat (t : Tracker) (l : List Submission) (x : Submission) :
    t.submitAll d (l ++ [x]) = (t.submitAll d l).submit d x := List.foldl_concat ..

theorem submitted_append (path : String) (l l' : List Submission) :
    submitted path (l ++ l') = submitted path l ++ submitted path l' := by
  unfold submitted
  rw [List.filter_append, List.map_append]

theorem mem_submitted_append (path : String) (l l' : List Submission) {c : String}
    (h : c ∈ submitted path l) : c ∈ submitted path (l ++ l') := by
  rw [submitted_append]
  exact List.mem_append_left _ h

theorem submitted_singleton (path : String) (x : Submission) :
    submitted path [x] = if path = x.path then [x.content] else [] := by
  unfold submitted
  by_cases h : x.path = path
  · simp [h]
  · simp [h, Ne.symm h]

theorem next_earned {l : List String} {content : String} (hd : d.TellsApart (l ++ [content])) :
    some (next (d.ofText content) (earned d l)) = earned d (l ++ [content]) := by
  unfold earned
  rw [List.getLast?_concat, Option.map_some, blocks_concat]
  cases hl : l.getLast? with
  | none =>
    have hnil : l = [] := List.getLast?_eq_none_iff.1 hl
    subst hnil
    rfl
  | some last =>
    rw [Option.map_some, next]
    by_cases h : last = content
    · subst h
      simp
    · have hne : d.ofText last ≠ d.ofText content := fun e => h <| Digest.ofText_inj
        (hd last (List.mem_append_left _ (List.mem_of_getLast? hl)) content (by simp)) e
      dsimp only
      rw [if_neg hne, if_neg fun e => h (Option.some.inj e), UInt64.ofNat_add]
      rfl

/-- **A new tracker has the stamps that the submitted contents have earned.** -/
theorem current_submitAll {l : List Submission} {path : String}
    (hd : d.TellsApart (submitted path l)) :
    (empty.submitAll d l).current path = earned d (submitted path l) := by
  induction l using List.reverseRecOn with
  | nil => rfl
  | append_singleton l x ih =>
    have hl := ih (hd.mono fun _ => mem_submitted_append path l [x])
    rw [submitted_append, submitted_singleton] at hd ⊢
    rw [submitAll_concat, submit_eq, current_stamp]
    split
    · next h =>
      rw [if_pos h] at hd
      rw [← h, hl, next_earned hd]
    · rw [List.append_nil, hl]

theorem stamp_submitAll {l : List Submission} {path content : String}
    (hd : d.TellsApart (submitted path l ++ [content])) :
    ((empty.submitAll d l).stamp d path content).1 =
      ⟨.ofNat (blocks (submitted path l ++ [content])), d.ofText content⟩ := by
  rw [stamp_fst, current_submitAll (hd.mono fun _ => List.mem_append_left _)]
  apply Option.some.inj
  rw [next_earned hd, earned, List.getLast?_concat, Option.map_some]

theorem current_stamp_self (t : Tracker) (path content : String) :
    (t.stamp d path content).2.current path = some (t.stamp d path content).1 := by
  rw [current_stamp, if_pos rfl, stamp_fst]

theorem current_submitAll_of_nil {path : String} {l : List Submission}
    (h : submitted path l = []) (t : Tracker) :
    (t.submitAll d l).current path = t.current path := by
  induction l using List.reverseRecOn with
  | nil => rfl
  | append_singleton l x ih =>
    rw [submitted_append, submitted_singleton, List.append_eq_nil_iff] at h
    have hne : path ≠ x.path := by
      rintro rfl
      rw [if_pos rfl] at h
      exact List.cons_ne_nil _ _ h.2
    rw [submitAll_concat, submit_eq, current_stamp, if_neg hne, ih h.1]

theorem isSome_current_submitAll (d : Digest) (l : List Submission) (path : String) :
    ((empty.submitAll d l).current path).isSome = true ↔ path ∈ l.map Submission.path := by
  induction l using List.reverseRecOn with
  | nil => simp [submitAll, current, empty]
  | append_singleton l x ih =>
    rw [submitAll_concat, submit_eq, current_stamp]
    split
    · next h => simp [h]
    · next h =>
      rw [ih]
      simp [h]

theorem size_submitAll (d : Digest) (l : List Submission) :
    (empty.submitAll d l).records.size = (l.map Submission.path).toFinset.card := by
  have hnodup : (empty.submitAll d l).records.keys.Nodup :=
    (empty.submitAll d l).records.pairwise_keys.imp KeyMap.ne_of_lt
  have hkeys : (empty.submitAll d l).records.keys.toFinset =
      (l.map Submission.path).toFinset := by
    ext path
    rw [List.mem_toFinset, List.mem_toFinset, KeyMap.mem_keys_iff]
    exact isSome_current_submitAll d l path
  rw [← hkeys, List.toFinset_card_of_nodup hnodup]
  exact (List.length_map ..).symm

/-! ## Unsaved records -/

/-- Whether a submission makes no version wrap around. -/
def fits (d : Digest) (t : Tracker) (x : Submission) : Bool :=
  (t.current x.path).all fun last => last.hash == d.ofText x.content || last.version + 1 != 0

/-- What a tracker is in comparison with the records that were settled last: it has counted on,
and it has a mark if and only if some path has a higher version now, or is new. -/
structure Marks (base : KeyMap Stamp) (t : Tracker) : Prop where
  onward : Precedes ⟨base, false⟩ t
  clean : t.dirty = false → t.records = base
  marked : t.dirty = true → ∃ path new, t.current path = some new ∧
    ∀ old, base.get? path = some old → old.version < new.version

variable {base : KeyMap Stamp}

theorem Marks.of_clean (h : t.dirty = false) : Marks t.records t where
  onward := Precedes.refl t
  clean _ := rfl
  marked hm := by
    rw [h] at hm
    cases hm

/-- **The mark is exact.** -/
theorem Marks.dirty_iff (h : Marks base t) : t.dirty = true ↔ t.records ≠ base := by
  constructor
  · intro hm heq
    obtain ⟨path, new, hnew, hlt⟩ := h.marked hm
    have hself : base.get? path = some new := by
      rw [← heq]
      exact hnew
    exact UInt64.lt_irrefl _ (hlt new hself)
  · intro hne
    by_contra hm
    exact hne (h.clean (Bool.eq_false_iff.2 hm))

/-- A content with another hash gets a higher version, unless that would wrap around. -/
theorem lt_version_next {hash : String} {last : Stamp} (hh : last.hash ≠ hash)
    (hv : last.version + 1 ≠ 0) : last.version < (next hash (some last)).version := by
  rcases follows_next hash hv with h | h
  · have he := hash_next hash (some last)
    rw [h] at he
    exact absurd he hh
  · exact h

/-- A submission changes nothing, or leaves a mark on behalf of a content with another hash. -/
theorem stamp_eq_or (t : Tracker) (path content : String) :
    (t.stamp d path content).2 = t ∨ ((t.stamp d path content).2.dirty = true ∧
      ∀ last, t.current path = some last → last.hash ≠ d.ofText content) := by
  unfold stamp
  dsimp only
  split
  · exact .inl rfl
  · next hne =>
    refine .inr ⟨rfl, fun last hl he => hne ?_⟩
    rw [hl, next, if_pos he]

/-- **A submission keeps the mark exact**: a version that goes up cannot come back to what it was
when the records were settled. -/
theorem Marks.submit (h : Marks base t) (hf : t.fits d x = true) :
    Marks base (t.submit d x) := by
  rw [submit_eq]
  rcases t.stamp_eq_or (d := d) x.path x.content with heq | ⟨hdirty, hother⟩
  · rw [heq]
    exact h
  have hself := current_stamp (d := d) t x.path x.content x.path
  rw [if_pos rfl] at hself
  have hlater : ∀ last, t.current x.path = some last →
      last.version < (next (d.ofText x.content) (t.current x.path)).version := by
    intro last hl
    have hv : last.version + 1 ≠ 0 := by
      simpa [fits, hl, hother last hl] using hf
    rw [hl]
    exact lt_version_next (hother last hl) hv
  refine ⟨fun path old hold => ?_, fun hclean => ?_, fun _ => ⟨x.path, _, hself, ?_⟩⟩
  · obtain ⟨last, hl, hfollows⟩ := h.onward path old hold
    rw [current_stamp]
    split
    · next hp =>
      subst hp
      exact ⟨_, rfl, Stamp.Follows.trans (.inr (hlater last hl)) hfollows⟩
    · exact ⟨last, hl, hfollows⟩
  · rw [hdirty] at hclean
    cases hclean
  · intro old hold
    obtain ⟨last, hl, rfl | hlt⟩ := h.onward x.path old hold
    · exact hlater last hl
    · exact UInt64.lt_trans hlt (hlater last hl)

theorem save_fst (t : Tracker) (disk : Disk) (file : String) :
    (t.save disk file).1 = if (t.save disk file).2.2.isOk then t.saved else t := by
  unfold save
  generalize disk.writeUnder file (.ofText t.text) = written
  obtain ⟨disk', answer⟩ := written
  cases answer <;> rfl

namespace Site

variable (d)

/-- Whether an act settles the records: a save that succeeds does, and a load, which starts anew
if the file holds no table. -/
def settles (s : Site) : Act → Bool
  | .submit _ | .change _ => false
  | .load _ => true
  | .save file => (s.tracker.save s.disk file).2.2.isOk

/-- The records as they were settled last, or else as they were given. -/
def settled (s : Site) (records : KeyMap Stamp) : List Act → KeyMap Stamp
  | [] => records
  | a :: rest =>
    (s.step d a).settled (if s.settles a then (s.step d a).tracker.records else records) rest

/-- Whether an act makes no version wrap around. -/
def fits (s : Site) : Act → Bool
  | .submit x => s.tracker.fits d x
  | .save _ | .load _ | .change _ => true

/-- Whether no act of a list makes a version wrap around. -/
def fitsAll (s : Site) : List Act → Bool
  | [] => true
  | a :: rest => s.fits d a && (s.step d a).fitsAll rest

variable {d} {s : Site}

theorem marks_step {a : Act} (h : Marks base s.tracker) (hf : s.fits d a = true) :
    Marks (if s.settles a then (s.step d a).tracker.records else base)
      (s.step d a).tracker := by
  cases a with
  | submit x => exact h.submit hf
  | change disk => exact h
  | load file => exact .of_clean (dirty_load s.disk file)
  | save file =>
    simp only [step, settles, save_fst]
    split
    · exact .of_clean rfl
    · exact h

/-- **All acts keep the mark exact.** -/
theorem marks_run {acts : List Act} (h : Marks base s.tracker) (hf : s.fitsAll d acts = true) :
    Marks (s.settled d base acts) (s.run d acts).tracker := by
  induction acts generalizing s base with
  | nil => exact h
  | cons a rest ih =>
    obtain ⟨ha, hrest⟩ := Bool.and_eq_true_iff.1 hf
    exact ih (marks_step h ha) hrest

end Site

/-! ## The law -/

/-- **What a new tracker answers, and when it is marked.** The version of a path is the number of
blocks of equal contents that were submitted for it so far, whatever was submitted for other paths;
the stamp that was answered last is the current one; there is one record for each path; and the
tracker is marked exactly if its records are not those that were loaded or saved last. The digest
has to tell apart the contents that were submitted for the path. -/
theorem law (d : Digest) :
    (∀ (l : List Submission) (path content : String),
      d.TellsApart (submitted path l ++ [content]) →
      blocks (submitted path l ++ [content]) < UInt64.size →
      ((empty.submitAll d l).version d path content).1.toNat =
          blocks (submitted path l ++ [content]) ∧
        ((empty.submitAll d l).stamp d path content).1.version.toNat =
          blocks (submitted path l ++ [content]) ∧
        ((empty.submitAll d l).stamp d path content).1.hash = d.ofText content) ∧
    (∀ l path, submitted path l = [] → (empty.submitAll d l).current path = none) ∧
    (∀ l path content l', submitted path l' = [] →
      (((empty.submitAll d l).submit d (.stamp path content)).submitAll d l').current path =
          some ((empty.submitAll d l).stamp d path content).1 ∧
        (((empty.submitAll d l).submit d (.version path content)).submitAll d l').current path =
          some ⟨((empty.submitAll d l).version d path content).1, d.ofText content⟩) ∧
    (∀ l, (empty.submitAll d l).records.size = (l.map Submission.path).toFinset.card) ∧
    ∀ disk acts, Site.fitsAll d ⟨empty, disk⟩ acts = true →
      ((Site.run d ⟨empty, disk⟩ acts).tracker.dirty = true ↔
        (Site.run d ⟨empty, disk⟩ acts).tracker.records ≠
          Site.settled d ⟨empty, disk⟩ .empty acts) := by
  refine ⟨fun l path content hd hfit => ?_, fun l path hnone => ?_,
    fun l path content l' hl' => ?_, size_submitAll d, fun disk acts hfit => ?_⟩
  · have hstamp := stamp_submitAll hd
    have hversion : (UInt64.ofNat (blocks (submitted path l ++ [content]))).toNat =
        blocks (submitted path l ++ [content]) := UInt64.toNat_ofNat_of_lt' hfit
    refine ⟨?_, ?_, ?_⟩
    · change ((empty.submitAll d l).stamp d path content).1.version.toNat = _
      rw [hstamp, hversion]
    · rw [hstamp, hversion]
    · rw [hstamp]
  · exact current_submitAll_of_nil hnone empty
  · rw [current_submitAll_of_nil hl', current_submitAll_of_nil hl']
    exact ⟨current_stamp_self _ path content, current_version _ path content⟩
  · exact (Site.marks_run (Marks.of_clean rfl) hfit).dirty_iff

/-! ## A content that comes back -/

/-- A content is submitted twice for a path, and then another one. -/
def reverting : List Submission :=
  [.version "a.ts" "x", .stamp "b.ts" "y", .stamp "a.ts" "x", .version "a.ts" "y"]

/-- The records are saved with the first content of a path, which comes back after another one. -/
def actsReverting : List Act :=
  [.submit (.version "a.ts" "x"), .save "table.json", .submit (.version "a.ts" "y"),
    .submit (.version "a.ts" "x")]

/-- The content that comes back gets a third version, and leaves the tracker marked. -/
theorem law_reverting : Digest.letters.TellsApart (submitted "a.ts" reverting ++ ["x"]) ∧
    ((empty.submitAll .letters reverting).version .letters "a.ts" "x").1.toNat = 3 ∧
    (empty.submitAll .letters reverting).current "c.ts" = none ∧
    ((empty.submitAll .letters reverting).submitAll .letters
      [.stamp "a.ts" "x", .version "b.ts" "x"]).current "a.ts" =
        some ((empty.submitAll .letters reverting).stamp .letters "a.ts" "x").1 ∧
    (empty.submitAll .letters reverting).records.size = 2 ∧
    Site.fitsAll .letters ⟨empty, .empty⟩ actsReverting = true ∧
    (Site.run .letters ⟨empty, .empty⟩ actsReverting).tracker.dirty = true ∧
    (Site.run .letters ⟨empty, .empty⟩ actsReverting).tracker.records ≠
      Site.settled .letters ⟨empty, .empty⟩ .empty actsReverting := by
  have hd : Digest.letters.TellsApart (submitted "a.ts" reverting ++ ["x"]) :=
    fun _ _ _ _ => (Digest.letters_faithful).separates _ _
  have hfits : Site.fitsAll .letters ⟨empty, .empty⟩ actsReverting = true := by decide
  have hmarked : (Site.run .letters ⟨empty, .empty⟩ actsReverting).tracker.dirty = true := by decide
  obtain ⟨hversion, hnone, hcurrent, hsize, hdirty⟩ := law .letters
  refine ⟨hd, ?_, hnone reverting "c.ts" (by decide), ?_, (hsize reverting).trans (by decide),
    hfits, hmarked, (hdirty .empty actsReverting hfits).1 hmarked⟩
  · exact (hversion reverting "a.ts" "x" hd (by decide)).1.trans (by decide)
  · exact (hcurrent reverting "a.ts" "x" [.version "b.ts" "x"] (by decide)).1

end Tracker

end CompileCache
