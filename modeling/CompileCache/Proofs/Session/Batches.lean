import CompileCache.Proofs.Session.Frames
import CompileCache.Proofs.Session.Settling

/-!
# Batches — emits of one build in any order

* `Desk.emits`: emits of one build, one after the other.
* **`Desk.answer_after`**: what an emit answers is not changed by an emit under another key.
* `Imprint`, `Desk.imprint?`, **`Desk.bears_emit`**: what an emit leaves in its slot and in memory.
* `Desk.Bears`: what a batch leaves, told by the members of a list and not by their order;
  **`Desk.bears_emits`**, **`Desk.Bears.alike`**.
* **`Mini.emits_commute`**: a batch of emits gives the same artifacts in any order, and leaves the
  same.
-/

namespace CompileCache

variable {σ : Type}

/-- Two emits of a build are under different keys. -/
def Build.KeysDiffer (d : Digest) (b : Build) (s : Source) (x y : Ask) : Prop :=
  ∀ fp fp', b.fingerprint? d s x = some fp → b.fingerprint? d s y = some fp' → fp.key ≠ fp'.key

theorem Build.KeysDiffer.symm {d : Digest} {b : Build} {s : Source} {x y : Ask}
    (h : b.KeysDiffer d s x y) : b.KeysDiffer d s y x :=
  fun fp fp' hx hy => (h fp' fp hy hx).symm

/-- Different fingerprints are under different keys if the digest separates them. -/
theorem Build.keysDiffer_of_ne {d : Digest} {b : Build} {s : Source} {x y : Ask}
    (hd : ∀ fp ∈ b.fingerprint? d s x, ∀ fp' ∈ b.fingerprint? d s y, d.Separates fp.bytes fp'.bytes)
    (hx : ∀ fp ∈ b.fingerprint? d s x, fp.Sized) (hy : ∀ fp ∈ b.fingerprint? d s y, fp.Sized)
    (h : b.fingerprint? d s x ≠ b.fingerprint? d s y) : b.KeysDiffer d s x y := by
  intro fp fp' hfp hfp' hkey
  obtain ⟨content, hc, hof⟩ := Option.map_eq_some_iff.1 hfp
  obtain ⟨content', hc', hof'⟩ := Option.map_eq_some_iff.1 hfp'
  refine h (hfp.trans (Eq.trans (congrArg some ?_) hfp'.symm))
  have hseparates := hd fp hfp fp' hfp'
  have hsized := hx fp hfp
  have hsized' := hy fp' hfp'
  subst hof hof'
  exact Fingerprint.eq_of_key_eq hseparates hsized hsized' hkey

namespace Desk

section Definitions

variable (d : Digest) (e : Engine σ)

/-- An emit of a build, with contents out of the world that the desk stands in. -/
def ask (table : KeyMap String) (b : Build) (k : Desk σ) (x : Ask) : Result σ :=
  k.emit d e (Origin.source ⟨table, k.disk⟩) b x.1 x.2

/-- Emits of one build, one after the other. -/
def emits (table : KeyMap String) (b : Build) (k : Desk σ) :
    List Ask → Desk σ × List (Except BuildError Emission)
  | [] => (k, [])
  | x :: l =>
    let r := k.ask d e table b x
    let (k', answers) := emits table b r.desk l
    (k', r.answer :: answers)

/-- The contents of a build stay over some emits. -/
def Unmoved (table : KeyMap String) (b : Build) (k : Desk σ) : List Ask → Prop
  | [] => True
  | x :: l =>
    b.set.origin.source ⟨table, (k.ask d e table b x).desk.disk⟩ =
      b.set.origin.source ⟨table, k.disk⟩ ∧ Unmoved table b (k.ask d e table b x).desk l

end Definitions

variable {d : Digest} {e : Engine σ} {L : σ → WorkingSet → Prop} {k k' : Desk σ} {view view' : View}
  {b : Build} {x y : Ask} {path content : String} {moduleName : Option String} {em : Emission}

/-- **What an emit answers is not changed by an emit under another key.** -/
theorem answer_after (he : e.Steady L) (hp : d.Plain) (h : k.InOrder L b)
    (hview : view' b.set.origin = view b.set.origin)
    (hkeys : b.KeysDiffer d (view b.set.origin) x y) :
    ((k.emit d e view b x.1 x.2).desk.emit d e view' b y.1 y.2).answer =
      (k.emit d e view b y.1 y.2).answer := by
  refine answer_emit_congr he rfl h.loaded (h.emit he.toKeeps view x.1 x.2).loaded hview
    (k.seen_emit view b x.1 x.2) fun content hc => ?_
  rw [stored?_eq, stored?_eq, found?_emit_of_ne hp h (hp _)]
  intro fp hx
  exact hkeys fp _ hx (b.fingerprint?_of_content d hc _)

/-! ## What an emit leaves -/

end Desk

/-- What an emit leaves in the records of its slot and in the memory of the cache. -/
structure Imprint where
  path : String
  key : String
  /-- The paths that were observed. -/
  observed : List String
  /-- What is in memory under the key. -/
  entry : Option Entry
  /-- The dependencies that were recorded for the path, if any were. -/
  record : Option Dependencies

namespace Desk

section Definitions

variable (d : Digest) (e : Engine σ)

/-- What an emit of a content leaves that made an artifact. -/
def imprintOf (k : Desk σ) (view : View) (b : Build) (x : Ask) (content : String) (em : Emission) :
    Imprint where
  path := x.1
  key := (Fingerprint.of d content b.set.options.emit x.2).key
  observed := k.lookedAt d e view b x.1 content x.2
  entry :=
    if em.outcome = .reuse then k.found? (.of d content b.set.options.emit x.2)
    else some ⟨.of d content b.set.options.emit x.2, em.unit⟩
  record := if em.outcome = .reuse then none else some em.unit.dependencies

/-- What an emit is going to leave, if it answers. -/
def imprint? (k : Desk σ) (view : View) (b : Build) (x : Ask) : Option Imprint :=
  ((view b.set.origin).content x.1).bind fun content =>
    (k.workOf d e view b x.1 content x.2).answer.toOption.map (k.imprintOf d e view b x content)

end Definitions

variable {d : Digest} {e : Engine σ} {L : σ → WorkingSet → Prop} {k k' k'' : Desk σ}
  {view view' : View} {b : Build} {x y : Ask} {path content : String} {moduleName : Option String}
  {em : Emission}

/-- What is left of a desk by emits with these imprints: it is told by the members of the list, not
by their order. -/
structure Bears (d : Digest) (s : Source) (k k' : Desk σ) (marks : List Imprint) : Prop where
  stamps : ∀ p, k'.slot.tracker.current p =
    if (∃ m ∈ marks, p ∈ m.observed) ∧ s.holds p = true then some (k.slot.tracker.seen d s p)
    else k.slot.tracker.current p
  recorded : ∀ m ∈ marks, ∀ deps, m.record = some deps →
    k'.slot.graph.dependenciesOf m.path = some deps
  unrecorded : ∀ p, (∀ m ∈ marks, m.path = p → m.record = none) →
    k'.slot.graph.dependenciesOf p = k.slot.graph.dependenciesOf p
  stored : ∀ m ∈ marks, k'.cache.memory.get? m.key = m.entry
  others : ∀ key, (∀ m ∈ marks, m.key ≠ key) →
    k'.cache.memory.get? key = k.cache.memory.get? key
  directory : k'.cache.directory = k.cache.directory

theorem bears_nil (s : Source) (k : Desk σ) : Bears d s k k [] where
  stamps p := by simp
  recorded m hm := absurd hm List.not_mem_nil
  unrecorded p _ := rfl
  stored m hm := absurd hm List.not_mem_nil
  others key _ := rfl
  directory := rfl

theorem graph_finish (version : UInt64) (r : Result σ) :
    (finish version r).desk.slot.graph = r.desk.slot.graph := by
  unfold finish Slot.persist
  split
  · rfl
  · dsimp only
    split
    · rfl
    · split <;> rfl

theorem current_emitContent_eq (k : Desk σ) (hc : (view b.set.origin).content path = some content)
    (moduleName : Option String) (p : String) :
    (k.emitContent d e view b path content moduleName).desk.slot.tracker.current p =
      if p ∈ k.lookedAt d e view b path content moduleName ∧
          (view b.set.origin).holds p = true then
        some (k.slot.tracker.seen d (view b.set.origin) p)
      else k.slot.tracker.current p := by
  rw [emitContent_eq]
  dsimp only
  rw [current_finish, tracker_workOf k hc, ← Tracker.current_observeEach]

theorem graph_emitContent
    (hw : (k.workOf d e view b path content moduleName).answer = .ok em) :
    (k.emitContent d e view b path content moduleName).desk.slot.graph =
      if em.outcome = .reuse then k.slot.graph
      else k.slot.graph.record path em.unit.dependencies := by
  rw [emitContent_eq]
  dsimp only
  rw [graph_finish, (way_workOf k view b path content moduleName).graph hw, graph_ready]
  rfl

theorem isSome_entry_imprintOf
    (hw : (k.workOf d e view b x.1 content x.2).answer = .ok em) :
    (k.imprintOf d e view b x content em).entry.isSome = true := by
  unfold imprintOf
  dsimp only
  split
  · next ho =>
    have hreused : k.stored? (.of d content b.set.options.emit x.2) = some em.unit :=
      (way_workOf (d := d) (e := e) k view b x.1 content x.2).reused_of hw ho
    rw [stored?_eq] at hreused
    obtain ⟨entry, hentry, -⟩ := Option.map_eq_some_iff.1 hreused
    rw [hentry]
    rfl
  · rfl

/-- **What an emit leaves is its imprint.** -/
theorem bears_emit (h : (k.emit d e view b x.1 x.2).answer = .ok em) :
    ∃ m, k.imprint? d e view b x = some m ∧ m.entry.isSome = true ∧
      Bears d (view b.set.origin) k (k.emit d e view b x.1 x.2).desk [m] := by
  rcases emit_eq_or (d := d) (e := e) k view b x.1 x.2 with he | ⟨content, -, hc, he⟩
  · rw [he] at h; cases h
  have hdir := directory_emit (d := d) (e := e) k view b x.1 x.2
  rw [he] at h hdir ⊢
  obtain ⟨em', hw, -, -⟩ := exists_of_emitContent h
  have way := way_workOf (d := d) (e := e) k view b x.1 content x.2
  have hgraph := graph_emitContent hw
  have hmemory := cache_emitContent (d := d) (e := e) k view b x.1 content x.2
  refine ⟨k.imprintOf d e view b x content em', ?_, isSome_entry_imprintOf hw, ?_⟩
  · unfold imprint?
    rw [hc, Option.bind_some, hw]
    rfl
  constructor
  case stamps =>
    intro p
    rw [current_emitContent_eq k hc x.2 p]
    simp; rfl
  case recorded =>
    intro m hm deps hdeps
    cases List.mem_singleton.1 hm
    unfold imprintOf at hdeps ⊢
    dsimp only at hdeps ⊢
    rw [hgraph]
    split at hdeps
    · cases hdeps
    · next ho =>
      cases hdeps
      rw [if_neg ho, Graph.dependenciesOf_record, if_pos rfl]
  case unrecorded =>
    intro p hp
    have hrecord := hp _ (List.mem_singleton.2 rfl)
    unfold imprintOf at hrecord
    dsimp only at hrecord
    rw [hgraph]
    split
    · rfl
    · next ho =>
      rw [if_neg ho] at hrecord
      rw [Graph.dependenciesOf_record, if_neg]
      rintro rfl
      exact absurd (hrecord rfl) (by simp)
  case stored =>
    intro m hm
    cases List.mem_singleton.1 hm
    exact hmemory ▸ way.memory_self hw
  case others =>
    intro key hkey
    rw [hmemory, way.memory_of_ne (hkey _ (List.mem_singleton.2 rfl)).symm]
    rfl
  case directory => exact hdir

theorem imprint?_congr (he : e.Steady L)
    (hl : k.slot.active = b.registration → L k.slot.engine b.set)
    (hl' : k'.slot.active = b.registration → L k'.slot.engine b.set)
    (hview : view' b.set.origin = view b.set.origin)
    (hseen : k'.slot.tracker.seen d (view b.set.origin) = k.slot.tracker.seen d (view b.set.origin))
    (hfound : ∀ fp, b.fingerprint? d (view b.set.origin) x = some fp → k'.found? fp = k.found? fp) :
    k'.imprint? d e view' b x = k.imprint? d e view b x := by
  have hload := loaded_activate he.toKeeps hl
  have hload' := loaded_activate he.toKeeps hl'
  have hcompile := he.compile_eq hload hload' hview x.1 x.2
  have hdiagnose := he.diagnose_eq hload hload' hview x.1
  unfold imprint?
  rw [hview]
  cases hc : (view b.set.origin).content x.1 with
  | none => rfl
  | some content =>
    have hc' : (view' b.set.origin).content x.1 = some content := by rw [hview, hc]
    have hf := hfound (.of d content b.set.options.emit x.2)
      (b.fingerprint?_of_content d hc _)
    have hlooked : k'.lookedAt d e view' b x.1 content x.2 =
        k.lookedAt d e view b x.1 content x.2 := by
      rw [lookedAt_eq, lookedAt_eq, hcompile, hdiagnose, hview, stored?_eq, stored?_eq, hf]
    rw [Option.bind_some, Option.bind_some, answer_workOf k hc, answer_workOf k' hc', hview, hseen,
      hcompile, hdiagnose, stored?_eq, hf]
    unfold imprintOf
    rw [hlooked, hf]
    rfl

/-! ## Batches -/

/-- Imprints of one path record the same. -/
def Coherent (marks : List Imprint) : Prop :=
  ∀ m ∈ marks, ∀ m' ∈ marks, m.path = m'.path → ∀ deps deps',
    m.record = some deps → m'.record = some deps' → deps = deps'

theorem Bears.cons {s : Source} {m : Imprint} {marks : List Imprint} (h : Bears d s k k' [m])
    (h' : Bears d s k' k'' marks)
    (hseen : k'.slot.tracker.seen d s = k.slot.tracker.seen d s)
    (hkeys : ∀ m' ∈ marks, m'.key ≠ m.key) (hc : Coherent (m :: marks)) :
    Bears d s k k'' (m :: marks) := by
  have hm : m ∈ [m] := List.mem_singleton.2 rfl
  constructor
  case stamps =>
    intro p
    rw [h'.stamps p, h.stamps p, hseen]
    by_cases hs : s.holds p = true
    · by_cases hp : p ∈ m.observed <;> simp [hs, hp]
    · simp [hs]
  case recorded =>
    intro m' hm' deps hdeps
    -- what was recorded first stays, unless the same path is recorded again, and then the same
    by_cases hagain : ∃ m₁ ∈ marks, m₁.path = m'.path ∧ m₁.record ≠ none
    · obtain ⟨m₁, hm₁, hpath, hrecord⟩ := hagain
      obtain ⟨deps₁, hdeps₁⟩ := Option.ne_none_iff_exists'.1 hrecord
      rw [hc m' hm' m₁ (List.mem_cons_of_mem m hm₁) hpath.symm deps deps₁ hdeps hdeps₁, ← hpath]
      exact h'.recorded m₁ hm₁ deps₁ hdeps₁
    · have hnone : ∀ m₁ ∈ marks, m₁.path = m'.path → m₁.record = none := by
        intro m₁ hm₁ hpath
        cases hr : m₁.record with
        | none => rfl
        | some deps₁ => exact absurd ⟨m₁, hm₁, hpath, by rw [hr]; simp⟩ hagain
      rw [h'.unrecorded m'.path hnone]
      rcases List.mem_cons.1 hm' with rfl | hin
      · exact h.recorded m' hm deps hdeps
      · exact absurd (hnone m' hin rfl) (by rw [hdeps]; simp)
  case unrecorded =>
    intro p hp
    rw [h'.unrecorded p fun m' hm' => hp m' (List.mem_cons_of_mem m hm')]
    refine h.unrecorded p fun m' hm' => ?_
    rw [List.mem_singleton.1 hm']
    exact hp m List.mem_cons_self
  case stored =>
    intro m' hm'
    rcases List.mem_cons.1 hm' with rfl | hin
    · rw [h'.others _ hkeys]
      exact h.stored _ hm
    · exact h'.stored m' hin
  case others =>
    intro key hkey
    rw [h'.others key fun m' hm' => hkey m' (List.mem_cons_of_mem m hm')]
    refine h.others key fun m' hm' => ?_
    rw [List.mem_singleton.1 hm']
    exact hkey m List.mem_cons_self
  case directory => exact h'.directory.trans h.directory

/-- Two desks with the same records, the same graph and the same cache in memory. -/
structure Alike (k k' : Desk σ) : Prop where
  records : k'.slot.tracker.records = k.slot.tracker.records
  graph : k'.slot.graph = k.slot.graph
  cache : k'.cache = k.cache

/-- **The order of the emits does not show in what they leave.** -/
theorem Bears.alike {s : Source} {marks marks' : List Imprint} (h : Bears d s k k' marks)
    (h' : Bears d s k k'' marks') (hm : ∀ m, m ∈ marks' ↔ m ∈ marks) : Alike k' k'' where
  records := by
    refine Tracker.records_ext fun p => ?_
    rw [h.stamps, h'.stamps]
    simp only [hm]
  graph := by
    have hby : k''.slot.graph.byPath = k'.slot.graph.byPath := by
      refine KeyMap.ext_get? fun p => ?_
      change k''.slot.graph.dependenciesOf p = k'.slot.graph.dependenciesOf p
      by_cases hr : ∀ m ∈ marks, m.path = p → m.record = none
      · rw [h.unrecorded p hr, h'.unrecorded p fun m hmem => hr m ((hm m).1 hmem)]
      · simp only [not_forall] at hr
        obtain ⟨m, hmem, rfl, hrecord⟩ := hr
        obtain ⟨deps, hdeps⟩ := Option.ne_none_iff_exists'.1 hrecord
        rw [h.recorded m hmem deps hdeps, h'.recorded m ((hm m).2 hmem) deps hdeps]
    cases hg : k''.slot.graph
    cases hg' : k'.slot.graph
    rw [hg, hg'] at hby
    exact congrArg Graph.mk hby
  cache := by
    have hmemory : k''.cache.memory = k'.cache.memory := by
      refine KeyMap.ext_get? fun key => ?_
      by_cases hk : ∀ m ∈ marks, m.key ≠ key
      · rw [h.others key hk, h'.others key fun m hmem => hk m ((hm m).1 hmem)]
      · simp only [not_forall, ne_eq, not_not] at hk
        obtain ⟨m, hmem, rfl⟩ := hk
        rw [h.stored m hmem, h'.stored m ((hm m).2 hmem)]
    have hdir := h'.directory.trans h.directory.symm
    cases hc : k''.cache
    cases hc' : k'.cache
    rw [hc, hc'] at hmemory hdir
    cases hmemory
    cases hdir
    rfl

/-! ## Runs of emits -/

variable {table : KeyMap String} {l l' : List Ask}

/-- **In a batch each emit answers as it would alone.** -/
theorem answers_emits (he : e.Steady L) (hp : d.Plain) (hk : k.InOrder L b)
    (hkeys : l.Pairwise (b.KeysDiffer d (b.set.origin.source ⟨table, k.disk⟩)))
    (hs : k.Unmoved d e table b l) :
    (k.emits d e table b l).2 = l.map fun x => (k.ask d e table b x).answer := by
  induction l generalizing k with
  | nil => rfl
  | cons x l ih =>
    obtain ⟨hx, hrest⟩ := List.pairwise_cons.1 hkeys
    obtain ⟨hsource, hs⟩ := hs
    have hk' : (k.ask d e table b x).desk.InOrder L b := hk.emit he.toKeeps _ x.1 x.2
    have hrest' := ih hk' (by rw [hsource]; exact hrest) hs
    change _ :: ((k.ask d e table b x).desk.emits d e table b l).2 = _
    rw [hrest', List.map_cons]
    congr 1
    exact List.map_congr_left fun y hy => answer_after he hp hk hsource (hx y hy)

theorem exists_of_imprint? {m : Imprint} (h : k.imprint? d e view b x = some m) :
    m.path = x.1 ∧ ∃ fp, b.fingerprint? d (view b.set.origin) x = some fp ∧ m.key = fp.key := by
  unfold imprint? at h
  obtain ⟨content, hc, h⟩ := Option.bind_eq_some_iff.1 h
  obtain ⟨em, -, rfl⟩ := Option.map_eq_some_iff.1 h
  exact ⟨rfl, _, b.fingerprint?_of_content d hc _, rfl⟩

theorem record_of_imprint? (he : e.Thorough L) (hk : k.InOrder L b) {m : Imprint}
    (h : k.imprint? d e view b x = some m) {deps : Dependencies} (hr : m.record = some deps) :
    ∃ report, (e.diagnose view (k.slot.activate e b).1.engine x.1).1 = .ok report ∧
      deps = report.references.sealed (k.slot.tracker.seen d (view b.set.origin)) := by
  have hload := loaded_activate he.toKeeps hk.loaded
  unfold imprint? at h
  obtain ⟨content, hc, h⟩ := Option.bind_eq_some_iff.1 h
  obtain ⟨em, hem, rfl⟩ := Option.map_eq_some_iff.1 h
  have hwork := ok_of_toOption hem
  rw [answer_workOf k hc] at hwork
  unfold imprintOf at hr
  dsimp only at hr
  split at hr
  · cases hr
  · next ho =>
    cases hr
    cases ha : (planOf d b.set.options.types (view b.set.origin) b.set.options.useCache
        (k.stored? (.of d content b.set.options.emit x.2))).answer x.1
          (k.slot.tracker.seen d (view b.set.origin))
          (e.compile view (k.slot.activate e b).1.engine x.1 x.2).1
          (e.diagnose view (k.slot.activate e b).1.engine x.1).1 with
    | error err => rw [ha] at hwork; cases hwork
    | ok em₀ =>
      rw [ha] at hwork
      cases hwork
      have hmap := he.diagnose_eq_map hload view x.1 x.2
      rw [hmap] at ha ⊢
      have hanew : planOf d b.set.options.types (view b.set.origin) b.set.options.useCache
          (k.stored? (.of d content b.set.options.emit x.2)) ≠ .reuse em.unit := by
        intro hp
        rw [hp] at ha
        exact ho (congrArg Emission.outcome (Except.ok.inj ha)).symm
      obtain ⟨out, hout, -, hdeps⟩ := Plan.anew_of_answer hanew ha
      exact ⟨out.toReport, by rw [hout]; rfl, hdeps⟩

/-- Imprints that emits leave of one desk are coherent. -/
theorem coherent_of_imprint? (he : e.Thorough L) (hk : k.InOrder L b) {marks : List Imprint}
    (h : ∀ m ∈ marks, ∃ y, k.imprint? d e view b y = some m) : Coherent marks := by
  intro m hm m' hm' hpath deps deps' hr hr'
  obtain ⟨y, hy⟩ := h m hm
  obtain ⟨y', hy'⟩ := h m' hm'
  obtain ⟨report, hreport, rfl⟩ := record_of_imprint? he hk hy hr
  obtain ⟨report', hreport', rfl⟩ := record_of_imprint? he hk hy' hr'
  rw [(exists_of_imprint? hy).1, (exists_of_imprint? hy').1] at hpath
  rw [hpath, hreport'] at hreport
  cases hreport
  rfl

theorem key_ne_of_imprint? {m m' : Imprint} (hm : k.imprint? d e view b x = some m)
    (hm' : k.imprint? d e view b y = some m')
    (hkeys : b.KeysDiffer d (view b.set.origin) x y) : m.key ≠ m'.key := by
  obtain ⟨-, fp, hfp, hkey⟩ := exists_of_imprint? hm
  obtain ⟨-, fp', hfp', hkey'⟩ := exists_of_imprint? hm'
  rw [hkey, hkey']
  exact hkeys fp fp' hfp hfp'

/-- **What a batch leaves is told by the imprints of its emits.** -/
theorem bears_emits (he : e.Thorough L) (hp : d.Plain) (hk : k.InOrder L b)
    (hkeys : l.Pairwise (b.KeysDiffer d (b.set.origin.source ⟨table, k.disk⟩)))
    (hs : k.Unmoved d e table b l) (hok : ∀ a ∈ (k.emits d e table b l).2, ∃ em, a = .ok em) :
    ∃ marks : List Imprint,
      l.map (k.imprint? d e (Origin.source ⟨table, k.disk⟩) b) = marks.map some ∧
      (∀ m ∈ marks, m.entry.isSome = true) ∧
      Bears d (b.set.origin.source ⟨table, k.disk⟩) k (k.emits d e table b l).1 marks := by
  induction l generalizing k with
  | nil => exact ⟨[], rfl, by simp, bears_nil _ k⟩
  | cons x l ih =>
    obtain ⟨hx, hrest⟩ := List.pairwise_cons.1 hkeys
    obtain ⟨hsource, hs⟩ := hs
    obtain ⟨em, hem⟩ := hok _ List.mem_cons_self
    change (k.emit d e (Origin.source ⟨table, k.disk⟩) b x.1 x.2).answer = .ok em at hem
    obtain ⟨m, hm, hentry, hbears⟩ := bears_emit hem
    have hk' : (k.ask d e table b x).desk.InOrder L b := hk.emit he.toKeeps _ x.1 x.2
    obtain ⟨marks, hmarks, hentries, hbears'⟩ := ih hk' (by rw [hsource]; exact hrest) hs
      fun a ha => hok a (List.mem_cons_of_mem _ ha)
    have hseen := k.seen_emit (d := d) (e := e) (Origin.source ⟨table, k.disk⟩) b x.1 x.2
    -- the other emits leave the same imprints after the first one as without it
    have hsame : l.map (k.imprint? d e (Origin.source ⟨table, k.disk⟩) b) = marks.map some := by
      rw [← hmarks]
      refine List.map_congr_left fun y hy => (imprint?_congr he.toSteady hk.loaded
        hk'.loaded hsource hseen fun fp hfp => ?_).symm
      have hplain : '/' ∉ fp.key.toList := by
        obtain ⟨content, -, rfl⟩ := Option.map_eq_some_iff.1 hfp
        exact hp _
      exact found?_emit_of_ne hp hk hplain fun fp' hfp' => hx y hy fp' fp hfp' hfp
    have hall : (x :: l).map (k.imprint? d e (Origin.source ⟨table, k.disk⟩) b) =
        (m :: marks).map some := by
      rw [List.map_cons, List.map_cons, hm, hsame]
    have hof : ∀ m' ∈ m :: marks, ∃ y,
        k.imprint? d e (Origin.source ⟨table, k.disk⟩) b y = some m' := by
      intro m' hm'
      obtain ⟨y, -, hmy⟩ := List.mem_map.1 (hall ▸ List.mem_map_of_mem (f := some) hm')
      exact ⟨y, hmy⟩
    refine ⟨m :: marks, hall, ?_, ?_⟩
    · intro m' hm'
      rcases List.mem_cons.1 hm' with rfl | hin
      · exact hentry
      · exact hentries m' hin
    · rw [hsource] at hbears'
      refine hbears.cons hbears' hseen (fun m' hm' => ?_) (coherent_of_imprint? he hk hof)
      obtain ⟨y, hy, hmy⟩ := List.mem_map.1 (hsame ▸ List.mem_map_of_mem (f := some) hm')
      exact (key_ne_of_imprint? hm hmy (hx y hy)).symm

theorem found?_emits_of_ne (hp : d.Plain) (hk : k.InOrder L b) (he : e.Keeps L) {fp : Fingerprint}
    (hplain : '/' ∉ fp.key.toList)
    (hne : ∀ x ∈ l, ∀ fp', b.fingerprint? d (b.set.origin.source ⟨table, k.disk⟩) x = some fp' →
      fp'.key ≠ fp.key)
    (hs : k.Unmoved d e table b l) : (k.emits d e table b l).1.found? fp = k.found? fp := by
  induction l generalizing k with
  | nil => rfl
  | cons x l ih =>
    obtain ⟨hsource, hs⟩ := hs
    have hk' : (k.ask d e table b x).desk.InOrder L b := hk.emit he _ x.1 x.2
    refine (ih hk' (fun y hy => ?_) hs).trans
      (found?_emit_of_ne hp hk hplain (hne x List.mem_cons_self))
    rw [hsource]
    exact hne y (List.mem_cons_of_mem x hy)

/-- **What a batch leaves does not tell the order of its emits.** -/
theorem emits_perm (he : e.Thorough L) (hp : d.Plain) (hk : k.InOrder L b) (hperm : l'.Perm l)
    (hkeys : l.Pairwise (b.KeysDiffer d (b.set.origin.source ⟨table, k.disk⟩)))
    (hs : k.Unmoved d e table b l) (hs' : k.Unmoved d e table b l')
    (hok : ∀ a ∈ (k.emits d e table b l).2, ∃ em, a = .ok em) :
    Alike (k.emits d e table b l).1 (k.emits d e table b l').1 ∧
    ∀ fp : Fingerprint, '/' ∉ fp.key.toList →
      (k.emits d e table b l').1.stored? fp = (k.emits d e table b l).1.stored? fp := by
  have hkeys' := hkeys.perm hperm.symm Build.KeysDiffer.symm
  have hl := answers_emits he.toSteady hp hk hkeys hs
  have hl' := answers_emits he.toSteady hp hk hkeys' hs'
  have hok' : ∀ a ∈ (k.emits d e table b l').2, ∃ em, a = .ok em := by
    intro a ha
    rw [hl', (hperm.map _).mem_iff, ← hl] at ha
    exact hok a ha
  obtain ⟨marks, hmarks, hentries, hb⟩ := bears_emits he hp hk hkeys hs hok
  obtain ⟨marks', hmarks', -, hb'⟩ := bears_emits he hp hk hkeys' hs' hok'
  have hmem : ∀ m, m ∈ marks' ↔ m ∈ marks := by
    intro m
    have h := (hperm.map (k.imprint? d e (Origin.source ⟨table, k.disk⟩) b)).mem_iff (a := some m)
    rw [hmarks, hmarks'] at h
    simpa using h
  refine ⟨hb.alike hb' hmem, fun fp hplain => ?_⟩
  rw [stored?_eq, stored?_eq]
  congr 1
  by_cases hne : ∀ x ∈ l, ∀ fp',
      b.fingerprint? d (b.set.origin.source ⟨table, k.disk⟩) x = some fp' → fp'.key ≠ fp.key
  · rw [found?_emits_of_ne hp hk he.toKeeps hplain hne hs,
      found?_emits_of_ne hp hk he.toKeeps hplain (fun x hx => hne x (hperm.mem_iff.1 hx)) hs']
  · simp only [not_forall, ne_eq, not_not] at hne
    obtain ⟨x, hx, fp', hfp', hkey⟩ := hne
    -- the entry of an emit of the batch is in memory, so no file counts
    obtain ⟨m, hm, hmx⟩ := List.mem_map.1 (hmarks ▸ List.mem_map_of_mem
      (f := k.imprint? d e (Origin.source ⟨table, k.disk⟩) b) hx)
    obtain ⟨-, fp₁, hfp₁, hkey₁⟩ := exists_of_imprint? hmx.symm
    rw [hfp'] at hfp₁
    cases hfp₁
    obtain ⟨entry, hentry⟩ := Option.isSome_iff_exists.1 (hentries m hm)
    rw [found?_eq, found?_eq, ← hkey, ← hkey₁, hb.stored m hm, hb'.stored m ((hmem m).2 hm), hentry]
    rfl

end Desk

/-! ## Hosts -/

namespace Host

section Definitions

variable (d : Digest) (e : Engine σ)

/-- The contents of an origin stay over a run. -/
def Unmoved (h : Host σ) (o : Origin) : List Step → Prop
  | [] => True
  | x :: xs => o.source (h.step d e x).1.world = o.source h.world ∧
    Unmoved (h.step d e x).1 o xs

/-- Emits of one build as steps. -/
def asks (name : String) (l : List Ask) : List Step := l.map fun x => .emit name x.1 x.2

end Definitions

/-- If the session of a build has a cache directory, then the paths of its entry files, and the path
of the versions of the build, have no two points and pass no link. -/
def DirectFor (h : Host σ) (i : Nat) (b : Build) : Prop :=
  ∀ s slot, h.sessions[i]? = some s → s.slots[b.slot]? = some slot →
    Desk.Direct ⟨slot, s.cache, h.world.disk⟩

/-- In the session at a place, two hosts hold the same in memory, find the same for all
fingerprints, and have the same records and graphs. -/
structure Alike (i : Nat) (h h' : Host σ) : Prop where
  exists_session : ∃ s s' : Session σ, h.sessions[i]? = some s ∧ h'.sessions[i]? = some s' ∧
    s'.cache = s.cache ∧
    (∀ fp : Fingerprint, '/' ∉ fp.key.toList →
      s'.cache.lookup? h'.world.disk fp = s.cache.lookup? h.world.disk fp) ∧
    s'.slots.map (fun slot => (slot.tracker.records, slot.graph)) =
      s.slots.map fun slot => (slot.tracker.records, slot.graph)

/-- A host after emits of a build that left a desk. -/
def putDesk (h : Host σ) (i : Nat) (s : Session σ) (b : Build) (k : Desk σ) : Host σ :=
  { h.setSession i { s with slots := s.slots.set b.slot k.slot, cache := k.cache } with
    world := { h.world with disk := k.disk } }

variable {d : Digest} {e : Engine σ} {L : σ → WorkingSet → Prop} {h : Host σ} {name : String}
  {i : Nat} {b : Build} {s : Session σ} {slot : Slot σ} {l l' : List Ask}

theorem step_ask (hb : h.builds.get? name = some (i, b)) (hs : h.sessions[i]? = some s)
    (hslot : s.slots[b.slot]? = some slot) (x : Ask) :
    h.step d e (.emit name x.1 x.2) =
      (h.putDesk i s b (Desk.ask d e h.world.table b ⟨slot, s.cache, h.world.disk⟩ x).desk,
        .emitted (Desk.ask d e h.world.table b ⟨slot, s.cache, h.world.disk⟩ x).answer,
        (Desk.ask d e h.world.table b ⟨slot, s.cache, h.world.disk⟩ x).calls) := by
  unfold step
  dsimp only
  rw [hb]
  unfold Host.emit
  dsimp only
  rw [hs]
  unfold Session.emit
  dsimp only
  rw [hslot]
  rfl

theorem unmoved_table (h : Host σ) (table : KeyMap String) (l : List Step) :
    h.Unmoved d e (.table table) l := by
  induction l generalizing h with
  | nil => trivial
  | cons x l ih => exact ⟨rfl, ih _⟩

/-- **A run of emits of one build is a run on its desk.** -/
theorem run_asks (hb : h.builds.get? name = some (i, b)) (hs : h.sessions[i]? = some s)
    (hslot : s.slots[b.slot]? = some slot) (l : List Ask) :
    (h.run d e (asks name l)).1 =
        h.putDesk i s b (Desk.emits d e h.world.table b ⟨slot, s.cache, h.world.disk⟩ l).1 ∧
      (h.run d e (asks name l)).2.map Prod.fst =
        (Desk.emits d e h.world.table b ⟨slot, s.cache, h.world.disk⟩ l).2.map .emitted ∧
      (h.Unmoved d e b.set.origin (asks name l) →
        Desk.Unmoved d e h.world.table b ⟨slot, s.cache, h.world.disk⟩ l) := by
  obtain ⟨hi, hsi⟩ := List.getElem?_eq_some_iff.1 hs
  obtain ⟨hj, hslotj⟩ := List.getElem?_eq_some_iff.1 hslot
  induction l generalizing h s slot with
  | nil =>
    refine ⟨?_, rfl, fun _ => trivial⟩
    unfold putDesk setSession
    change h = { h with sessions := h.sessions.set i { s with slots := s.slots.set b.slot slot } }
    have hset : s.slots.set b.slot slot = s.slots := by rw [← hslotj, List.set_getElem_self]
    rw [hset]
    change h = { h with sessions := h.sessions.set i s }
    rw [← hsi, List.set_getElem_self]
  | cons x l ih =>
    have hstep := step_ask (d := d) (e := e) hb hs hslot x
    generalize hr : Desk.ask d e h.world.table b ⟨slot, s.cache, h.world.disk⟩ x = r at hstep
    have hi' : i < (h.putDesk i s b r.desk).sessions.length := by
      unfold putDesk setSession
      rwa [List.length_set]
    obtain ⟨h₁, h₂, h₃⟩ := ih (h := h.putDesk i s b r.desk)
      (s := { s with slots := s.slots.set b.slot r.desk.slot, cache := r.desk.cache })
      hb (List.getElem?_set_self hi) (List.getElem?_set_self hj) hi'
      (List.getElem_set_self _) (by rw [List.length_set]; exact hj) (List.getElem_set_self _)
    change (h.run d e (.emit name x.1 x.2 :: asks name l)).1 = _ ∧
      (h.run d e (.emit name x.1 x.2 :: asks name l)).2.map Prod.fst = _ ∧
      (h.Unmoved d e b.set.origin (.emit name x.1 x.2 :: asks name l) → _)
    unfold run Desk.emits Desk.Unmoved Unmoved
    rw [hstep, hr]
    refine ⟨?_, ?_, fun hu => ⟨hu.1, h₃ hu.2⟩⟩
    · refine h₁.trans ?_
      unfold putDesk setSession
      simp only [List.set_set]
    · exact congrArg (Answer.emitted r.answer :: ·) h₂

theorem exists_inOrder (hk : e.Keeps L) (hr : Reachable d e h)
    (hb : h.builds.get? name = some (i, b)) (hdirect : h.DirectFor i b) :
    ∃ s slot, h.sessions[i]? = some s ∧ s.slots[b.slot]? = some slot ∧
      Desk.InOrder L b ⟨slot, s.cache, h.world.disk⟩ := by
  obtain ⟨s, slot, hsi, hslot, hl⟩ := exists_desk (hr.sound hk) hb
  exact ⟨s, slot, hsi, hslot, hl, ((hr.sound e.keeps_true).sessions i s hsi).tables slot
    (List.mem_of_getElem? hslot), hdirect s slot hsi hslot⟩

/-- **Each emit of a batch answers as it would alone**, for any steady compiler. -/
theorem answers_asks (he : e.Steady L) (hp : d.Plain) (hr : Reachable d e h)
    (hb : h.builds.get? name = some (i, b))
    (hkeys : l.Pairwise (b.KeysDiffer d (b.set.origin.source h.world)))
    (hdirect : h.DirectFor i b) (hs : h.Unmoved d e b.set.origin (asks name l)) :
    (h.run d e (asks name l)).2.map Prod.fst =
      l.map fun x => (h.step d e (.emit name x.1 x.2)).2.1 := by
  obtain ⟨s, slot, hsi, hslot, hk⟩ := exists_inOrder he.toKeeps hr hb hdirect
  obtain ⟨-, hanswers, hmoved⟩ := run_asks (d := d) (e := e) hb hsi hslot l
  rw [hanswers, Desk.answers_emits he hp hk hkeys (hmoved hs), List.map_map]
  refine List.map_congr_left fun x _ => ?_
  rw [step_ask hb hsi hslot x]
  rfl

/-- **What a batch leaves does not tell the order of its emits**, for any thorough compiler. -/
theorem run_perm (he : e.Thorough L) (hp : d.Plain) (hr : Reachable d e h)
    (hb : h.builds.get? name = some (i, b)) (hperm : l'.Perm l)
    (hkeys : l.Pairwise (b.KeysDiffer d (b.set.origin.source h.world)))
    (hdirect : h.DirectFor i b) (hs : h.Unmoved d e b.set.origin (asks name l))
    (hs' : h.Unmoved d e b.set.origin (asks name l'))
    (hok : ∀ a ∈ (h.run d e (asks name l)).2.map Prod.fst, ∃ em, a = .emitted (.ok em)) :
    Alike i (h.run d e (asks name l)).1 (h.run d e (asks name l')).1 := by
  obtain ⟨s, slot, hsi, hslot, hk⟩ := exists_inOrder he.toKeeps hr hb hdirect
  obtain ⟨hrun, hanswers, hmoved⟩ := run_asks (d := d) (e := e) hb hsi hslot l
  obtain ⟨hrun', -, hmoved'⟩ := run_asks (d := d) (e := e) hb hsi hslot l'
  have hok' : ∀ a ∈ (Desk.emits d e h.world.table b ⟨slot, s.cache, h.world.disk⟩ l).2,
      ∃ em, a = .ok em := by
    intro a ha
    obtain ⟨em, hem⟩ := hok (.emitted a) (hanswers ▸ List.mem_map_of_mem ha)
    exact ⟨em, Answer.emitted.inj hem⟩
  obtain ⟨halike, hfound⟩ := Desk.emits_perm he hp hk hperm hkeys (hmoved hs) (hmoved' hs') hok'
  have hi := (List.getElem?_eq_some_iff.1 hsi).1
  rw [hrun, hrun']
  refine ⟨_, _, List.getElem?_set_self hi, List.getElem?_set_self hi, halike.cache,
    fun fp hfp => hfound fp hfp, ?_⟩
  rw [List.map_set, List.map_set]
  congr 1
  exact Prod.ext halike.records halike.graph

end Host

/-! ## The compiler of the small language -/

namespace Mini

/-- **Emits of one build commute**, in all hosts that runs lead to: in whatever order the emits of a
batch are made, each of them answers as it would alone, and what is left in the cache, in the
records and in the graphs is the same. -/
theorem emits_commute {d : Digest} {h : Host Compiler} (hp : d.Plain) (hr : h.Reachable d engine)
    {name : String} {i : Nat} {b : Build} (hb : h.builds.get? name = some (i, b)) {l l' : List Ask}
    (hperm : l'.Perm l) (hkeys : l.Pairwise (b.KeysDiffer d (b.set.origin.source h.world)))
    (hdirect : h.DirectFor i b) (hs : h.Unmoved d engine b.set.origin (Host.asks name l))
    (hs' : h.Unmoved d engine b.set.origin (Host.asks name l'))
    (hok : ∀ a ∈ (h.run d engine (Host.asks name l)).2.map Prod.fst,
      ∃ em, a = .emitted (.ok em)) :
    (h.run d engine (Host.asks name l)).2.map Prod.fst =
        (l.map fun x => (h.step d engine (.emit name x.1 x.2)).2.1) ∧
      (h.run d engine (Host.asks name l')).2.map Prod.fst =
        (l'.map fun x => (h.step d engine (.emit name x.1 x.2)).2.1) ∧
      Host.Alike i (h.run d engine (Host.asks name l)).1 (h.run d engine (Host.asks name l')).1 :=
  ⟨Host.answers_asks steady hp hr hb hkeys hdirect hs,
    Host.answers_asks steady hp hr hb (hkeys.perm hperm.symm Build.KeysDiffer.symm) hdirect hs',
    Host.run_perm thorough hp hr hb hperm hkeys hdirect hs hs' hok⟩

/-! ## Two files in two orders -/

/-- The contents of two files. -/
def twoFiles : KeyMap String := .ofList [("a.ts", "let x = 1;"), ("c.ts", "let y = 1;")]

/-- A build of the two files. -/
def bothFiles : Build := ⟨⟨["a.ts", "c.ts"], .table twoFiles, {}⟩, 0, 1⟩

theorem keysDiffer_bothFiles : bothFiles.KeysDiffer (.brief Host.usualTail) (.ofTable twoFiles)
    ("a.ts", none) ("c.ts", none) := by
  have ha : bothFiles.fingerprint? (.brief Host.usualTail) (.ofTable twoFiles) ("a.ts", none) =
      some (.of (.brief Host.usualTail) "let x = 1;" ({} : Options).emit none) := rfl
  have hc : bothFiles.fingerprint? (.brief Host.usualTail) (.ofTable twoFiles) ("c.ts", none) =
      some (.of (.brief Host.usualTail) "let y = 1;" ({} : Options).emit none) := rfl
  intro fp fp' hfp hfp'
  cases ha.symm.trans hfp
  cases hc.symm.trans hfp'
  decide +kernel

/-- A host with a cache directory and the build. -/
def paired : Host Compiler :=
  (Host.new.run (.brief Host.usualTail) engine
    [.bind "" "b", .register "" "m" ["a.ts", "c.ts"] (.table twoFiles) {}]).1

theorem places_paired : paired.builds.get? "m" = some (0, bothFiles) ∧
    (paired.sessions[0]?).map (·.cache.directory) = some (some "b") ∧
    (paired.sessions[0]?).bind (fun s => (s.slots[0]?).map (·.tableFile)) =
      some (some (Slot.tablePath "b" "os")) :=
  ⟨by decide +kernel, by decide +kernel, by decide +kernel⟩

theorem directFor_paired : paired.DirectFor 0 bothFiles := by
  intro s slot hs hslot directory hd
  obtain ⟨-, hdir, htable⟩ := places_paired
  rw [hs] at hdir htable
  rw [Option.bind_some, show s.slots[0]? = some slot from hslot] at htable
  cases hd.symm.trans (Option.some.inj hdir)
  have horderly : paired.world.disk.Orderly "b" := Disk.linkless_empty.orderly (by decide)
  refine ⟨fun key hkey => horderly.entry hkey, fun file hf => ?_⟩
  cases hf.symm.trans (Option.some.inj htable)
  exact horderly.table (by decide)

/-- Both files can be emitted in either order. -/
theorem emits_commute_paired :
    (paired.run (.brief Host.usualTail) engine
        (Host.asks "m" [("a.ts", none), ("c.ts", none)])).2.map Prod.fst =
      [(paired.step (.brief Host.usualTail) engine (.emit "m" "a.ts" none)).2.1,
        (paired.step (.brief Host.usualTail) engine (.emit "m" "c.ts" none)).2.1] ∧
    (paired.run (.brief Host.usualTail) engine
        (Host.asks "m" [("c.ts", none), ("a.ts", none)])).2.map Prod.fst =
      [(paired.step (.brief Host.usualTail) engine (.emit "m" "c.ts" none)).2.1,
        (paired.step (.brief Host.usualTail) engine (.emit "m" "a.ts" none)).2.1] ∧
    Host.Alike 0
      (paired.run (.brief Host.usualTail) engine
        (Host.asks "m" [("a.ts", none), ("c.ts", none)])).1
      (paired.run (.brief Host.usualTail) engine
        (Host.asks "m" [("c.ts", none), ("a.ts", none)])).1 := by
  have hr : paired.Reachable (.brief Host.usualTail) engine := Host.Reachable.new.run _
  obtain ⟨hbuild, -⟩ := places_paired
  have hkeys : [("a.ts", none), ("c.ts", none)].Pairwise (bothFiles.KeysDiffer
      (.brief Host.usualTail) (bothFiles.set.origin.source paired.world)) :=
    List.pairwise_pair.2 keysDiffer_bothFiles
  refine emits_commute (Digest.brief_plain _) hr hbuild
    (List.Perm.swap ("a.ts", none) ("c.ts", none) [])
    hkeys directFor_paired (Host.unmoved_table paired twoFiles _)
    (Host.unmoved_table paired twoFiles _) fun a ha => ?_
  -- each emit answers alone, and so it does in the batch
  rw [Host.answers_asks steady (Digest.brief_plain _) hr hbuild hkeys directFor_paired
    (Host.unmoved_table paired twoFiles _)] at ha
  have halone : ∀ path ∈ ["a.ts", "c.ts"], (paired.step (.brief Host.usualTail) engine
      (.emit "m" path none)).2.1.emission?.isSome = true := by decide +kernel
  obtain ⟨x, hx, rfl⟩ := List.mem_map.1 ha
  rcases List.mem_pair.1 hx with rfl | rfl
  · obtain ⟨em, calls, h⟩ := Answer.exists_emission (halone "a.ts" (by decide))
    exact ⟨em, congrArg Prod.fst h⟩
  · obtain ⟨em, calls, h⟩ := Answer.exists_emission (halone "c.ts" (by decide))
    exact ⟨em, congrArg Prod.fst h⟩

/-- A host that emitted one of the files into a directory, and has turned to another path of that
directory, which leads nowhere as long as a directory on the way is missing. -/
def strayed : Host Compiler :=
  (Host.new.run (.brief Host.usualTail) engine
    [.register "" "m" ["a.ts", "c.ts"] (.table twoFiles) {}, .bind "" "b", .emit "m" "a.ts" none,
      .bind "" "n/../b"]).1

theorem exists_emission_bothFiles {h : Host Compiler} {d : Digest} (hr : h.Reachable d engine)
    (hb : h.builds.get? "m" = some (0, bothFiles)) {x : Ask}
    (hx : x ∈ [("a.ts", none), ("c.ts", none)]) :
    ∃ em, (h.step d engine (.emit "m" x.1 x.2)).2.1 = .emitted (.ok em) := by
  have hs := hr.sound keeps_loaded
  obtain ⟨s, slot, hsi, hslot, hl⟩ := Host.exists_desk hs hb
  have hplain : ∃ content, (Source.ofTable twoFiles).content x.1 = some content ∧
      bothFiles.contains x.1 = true ∧
      (Program.read content).statements.contains .crash = false := by
    rcases List.mem_pair.1 hx with rfl | rfl
    · exact ⟨"let x = 1;", by decide, by decide, by decide⟩
    · exact ⟨"let y = 1;", by decide, by decide, by decide⟩
  obtain ⟨content, hc, hp, hcrash⟩ := hplain
  change (Origin.source h.world bothFiles.set.origin).content x.1 = some content at hc
  have haccepts : engine.Accepts Loaded (Origin.source h.world) bothFiles.set x.1 x.2 :=
    accepts hp hc hcrash
  obtain ⟨em, hem⟩ := Desk.exists_answer (d := d) (k := ⟨slot, s.cache, h.world.disk⟩) keeps_loaded
    hl hp hc haccepts
  refine ⟨em, ?_⟩
  rw [Host.step_ask hb hsi hslot x]
  exact congrArg Answer.emitted hem

/-- **The order of two emits can show**: if the second file is emitted first, then the missing
directory is made, and the entry of the first file is found again. -/
theorem emits_clash : (Digest.brief Host.usualTail).Faithful ∧
    strayed.Reachable (.brief Host.usualTail) engine ∧
    strayed.builds.get? "m" = some (0, bothFiles) ∧
    bothFiles.KeysDiffer (.brief Host.usualTail) (.ofTable twoFiles) ("a.ts", none)
      ("c.ts", none) ∧
    (∃ emA emC, (strayed.run (.brief Host.usualTail) engine
        (Host.asks "m" [("a.ts", none), ("c.ts", none)])).2.map Prod.fst =
      [.emitted (.ok emA), .emitted (.ok emC)] ∧ emA.outcome = .miss) ∧
    ∃ emC emA, (strayed.run (.brief Host.usualTail) engine
        (Host.asks "m" [("c.ts", none), ("a.ts", none)])).2.map Prod.fst =
      [.emitted (.ok emC), .emitted (.ok emA)] ∧ emA.outcome ≠ .miss := by
  have hr : strayed.Reachable (.brief Host.usualTail) engine := Host.Reachable.new.run _
  have hbuild : strayed.builds.get? "m" = some (0, bothFiles) := by decide +kernel
  have hbuilds : ∀ path, (strayed.step (.brief Host.usualTail) engine
      (.emit "m" path none)).1.builds.get? "m" = some (0, bothFiles) := by
    intro path
    rw [Host.builds_emit, hbuild]
  refine ⟨Digest.brief_faithful _, hr, hbuild, keysDiffer_bothFiles, ?_, ?_⟩
  · obtain ⟨emA, hA⟩ := exists_emission_bothFiles hr hbuild (x := ("a.ts", none)) (by simp)
    obtain ⟨emC, hC⟩ := exists_emission_bothFiles (hr.step (.emit "m" "a.ts" none))
      (hbuilds "a.ts") (x := ("c.ts", none)) (by simp)
    refine ⟨emA, emC, ?_, ?_⟩
    · rw [← hA, ← hC]
      rfl
    · have hmiss : (strayed.step (.brief Host.usualTail) engine
          (.emit "m" "a.ts" none)).2.1.emission?.map (·.outcome) = some .miss := by decide +kernel
      rw [hA] at hmiss
      exact Option.some.inj hmiss
  · obtain ⟨emC, hC⟩ := exists_emission_bothFiles hr hbuild (x := ("c.ts", none)) (by simp)
    have hr' := hr.step (.emit "m" "c.ts" none)
    obtain ⟨emA, hA⟩ := exists_emission_bothFiles hr' (hbuilds "c.ts") (x := ("a.ts", none))
      (by simp)
    refine ⟨emC, emA, ?_, ?_⟩
    · rw [← hC, ← hA]
      rfl
    · -- the entry of the first file is found, so the outcome is no miss
      obtain ⟨s, slot, hsi, hslot, -⟩ := Host.exists_desk (hr'.sound keeps_loaded) (hbuilds "c.ts")
      have hfound : ((strayed.step (.brief Host.usualTail) engine
          (.emit "m" "c.ts" none)).1.sessions[0]?.any fun s =>
            (s.cache.lookup? (strayed.step (.brief Host.usualTail) engine
              (.emit "m" "c.ts" none)).1.world.disk
              (.of (.brief Host.usualTail) "let x = 1;" ({} : Options).emit none)).isSome) =
          true := by decide +kernel
      rw [hsi] at hfound
      rw [Host.step_ask (hbuilds "c.ts") hsi hslot ("a.ts", none)] at hA
      have hc : (Source.ofTable twoFiles).content "a.ts" = some "let x = 1;" := by decide
      have hout := Desk.outcome_emit hc (Answer.emitted.inj hA)
      intro hmiss
      have hnone := Desk.tier_eq_miss_iff.1 (hout.symm.trans hmiss)
      rw [Option.any_some] at hfound
      exact absurd (congrArg Option.isSome hnone) (ne_of_eq_of_ne hfound (by decide))

end Mini

end CompileCache
