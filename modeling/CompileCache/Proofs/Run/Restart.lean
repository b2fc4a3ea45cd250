import CompileCache.Proofs.Run.Solo
import CompileCache.Proofs.Session.Settling

/-!
# Restart — a session that is opened again

* `Answer.Same`: answers that say the same, whatever numbers builds have.
* `Host.Twins`: two hosts whose sessions are twins, with builds of the same working sets.
* **`Host.Twins.run`**: runs of the session answer the same on both, and leave the same world.
* `Host.opened`, `Host.restart`: a host with a session on a cache directory, and the steps that open
  it again and register again what was registered.
* **`Host.answers_restart`**: nobody can tell whether a session was opened again.
-/

namespace CompileCache

variable {σ : Type} {d : Digest} {e : Engine σ} {L : σ → WorkingSet → Prop}
  {K : ByteArray → Prop}

/-- Answers that say the same: builds count by their working sets. -/
inductive Answer.Same : Answer → Answer → Prop
  | refl (a : Answer) : Same a a
  | registered {b b' : Build} (h : b'.set = b.set) :
    Same (.registered (.ok b)) (.registered (.ok b'))

namespace Host

/-- Builds of one working set in two sessions, or none in either. -/
inductive Matched (i i' : Nat) (s s' : Session σ) :
    Option (Nat × Build) → Option (Nat × Build) → Prop
  | none : Matched i i' s s' none none
  | some {b b' : Build} (hset : b'.set = b.set) (hp : s.Places b) (hp' : s'.Places b') :
    Matched i i' s s' (some (i, b)) (some (i', b'))

/-- Two hosts in one world whose sessions under a name are twins, with builds of the same working
sets. -/
structure Twins (d : Digest) (K : ByteArray → Prop) (name directory : String) (h h' : Host σ)
    (i i' : Nat) (s s' : Session σ) : Prop where
  world : h'.world = h.world
  orderly : h.world.disk.Orderly directory
  session : h.session? name = some (i, s)
  session' : h'.session? name = some (i', s')
  twin : s.Twin d K directory h.world.disk s'
  builds : ∀ m, Matched i i' s s' (h.builds.get? m) (h'.builds.get? m)

variable {h h' : Host σ} {name directory : String} {i i' : Nat} {s s' s₁ s₁' : Session σ}
  {l : List Step} {x : Step}

theorem Matched.mono {p p' : Option (Nat × Build)} (hm : Matched i i' s s' p p')
    (hp : ∀ b, s.Places b → s₁.Places b) (hp' : ∀ b, s'.Places b → s₁'.Places b) :
    Matched i i' s₁ s₁' p p' := by
  cases hm with
  | none => exact .none
  | some hset hb hb' => exact .some hset (hp _ hb) (hp' _ hb')

theorem Twins.next (ht : Twins d K name directory h h' i i' s s') {disk : Disk}
    (ho : disk.Orderly directory) (htwin : s₁.Twin d K directory disk s₁')
    {builds builds' : KeyMap (Nat × Build)}
    (hb : ∀ m, Matched i i' s₁ s₁' (builds.get? m) (builds'.get? m)) :
    Twins d K name directory (h.next i s₁ disk builds) (h'.next i' s₁' disk builds') i i' s₁
      s₁' where
  world := by
    change { h'.world with disk } = { h.world with disk }
    rw [ht.world]
  orderly := ho
  session := session?_next ht.session _ _ _
  session' := session?_next ht.session' _ _ _
  twin := htwin
  builds := hb

/-! ## Steps -/

section Steps

variable (ht : Twins d K name directory h h' i i' s s') (he : e.Steady L) (hd : d.FaithfulOn K)
  (hp : d.Plain)
include ht

theorem Twins.register (build : String) (paths : List String) (origin : Origin)
    (options : Options) :
    (∃ s₁ s₁', Twins d K name directory (h.step d e (.register name build paths origin options)).1
        (h'.step d e (.register name build paths origin options)).1 i i' s₁ s₁') ∧
      Answer.Same (h.step d e (.register name build paths origin options)).2.1
        (h'.step d e (.register name build paths origin options)).2.1 := by
  rw [step_register ht.session, step_register ht.session', ht.world]
  cases hset : WorkingSet.of? paths origin options with
  | error err => exact ⟨⟨s, s', ht.next ht.orderly ht.twin ht.builds⟩, .refl _⟩
  | ok set =>
    have hplain := WorkingSet.plain_of? hset
    obtain ⟨hext, hplaces⟩ := ht.twin.homed.registerFiles (e := e) h.world.disk hplain
    obtain ⟨hext', hplaces'⟩ := ht.twin.homed'.registerFiles (e := e) h.world.disk hplain
    refine ⟨⟨_, _, ht.next ht.orderly (ht.twin.registerFiles hplain) fun m => ?_⟩, .registered rfl⟩
    rw [KeyMap.get?_insert, KeyMap.get?_insert]
    split
    · exact .some rfl hplaces hplaces'
    · exact (ht.builds m).mono hext.places hext'.places

theorem Twins.settle {r r' : Session.Result σ} (hr : r'.answer = r.answer ∧ r'.disk = r.disk ∧
      r.session.Twin d K directory r.disk r'.session) (ho : r.disk.Orderly directory)
    (hkept : ∀ b, s.Places b → r.session.Places b)
    (hkept' : ∀ b, s'.Places b → r'.session.Places b) :
    (∃ s₁ s₁', Twins d K name directory (h.next i r.session r.disk h.builds)
        (h'.next i' r'.session r'.disk h'.builds) i i' s₁ s₁') ∧
      Answer.Same (.emitted r.answer) (.emitted r'.answer) := by
  obtain ⟨hanswer, hdisk, htwin⟩ := hr
  rw [hanswer, hdisk]
  exact ⟨⟨_, _, ht.next ho htwin fun m => (ht.builds m).mono hkept hkept'⟩, .refl _⟩

include he hd hp in
theorem Twins.emit (hs : h.Sound L) (hs' : h'.Sound L) (build path : String)
    (moduleName : Option String)
    (hproper : ∀ q, h.request? d e (.emit build path moduleName) = some q → ∀ fp,
      q.build.fingerprint? d (q.build.set.origin.source h.world) (q.path, q.moduleName) = some fp →
      fp.Proper d K) :
    (∃ s₁ s₁', Twins d K name directory (h.step d e (.emit build path moduleName)).1
        (h'.step d e (.emit build path moduleName)).1 i i' s₁ s₁') ∧
      Answer.Same (h.step d e (.emit build path moduleName)).2.1
        (h'.step d e (.emit build path moduleName)).2.1 := by
  have hb := ht.builds build
  generalize hm : h.builds.get? build = p at hb
  generalize hm' : h'.builds.get? build = p' at hb
  cases hb with
  | none =>
    rw [step_emit_of_none hm, step_emit_of_none hm']
    exact ⟨⟨s, s', ht⟩, .refl _⟩
  | @some b b' hset hplaces hplaces' =>
    have hfits : ∀ fp, b.fingerprint? d (b.set.origin.source h.world) (path, moduleName) = some fp →
        fp.Proper d K := hproper ⟨b, path, moduleName⟩ (request?_emit_of hm path moduleName)
    have hemit := ht.twin.emit (e := e) he hd hp ht.orderly hset
      (hs.sessions i s (getElem?_of_session? ht.session)) ⟨build, hm⟩ hplaces
      (hs'.sessions i' s' (getElem?_of_session? ht.session')) ⟨build, hm'⟩ hplaces' hfits
    have horderly := Session.orderly_emit (d := d) (e := e) ht.orderly s b path moduleName
    have hkept : ∀ b₁, s.Places b₁ → (s.emit d e h.world b path moduleName).session.Places b₁ :=
      fun _ hb => hb.emit d e h.world b path moduleName
    have hkept' : ∀ b₁, s'.Places b₁ → (s'.emit d e h.world b' path moduleName).session.Places b₁ :=
      fun _ hb => hb.emit d e h.world b' path moduleName
    rw [step_emit ht.session hm, step_emit ht.session' hm', ht.world]
    exact ht.settle hemit horderly hkept hkept'

include he hd hp in
theorem Twins.snippet (hs : h.Sound L) (hs' : h'.Sound L) (content : String)
    (path moduleName : Option String) (options : Options)
    (hproper : ∀ q, h.request? d e (.snippet name content path moduleName options) = some q → ∀ fp,
      q.build.fingerprint? d (q.build.set.origin.source h.world) (q.path, q.moduleName) = some fp →
      fp.Proper d K) :
    (∃ s₁ s₁', Twins d K name directory
        (h.step d e (.snippet name content path moduleName options)).1
        (h'.step d e (.snippet name content path moduleName options)).1 i i' s₁ s₁') ∧
      Answer.Same (h.step d e (.snippet name content path moduleName options)).2.1
        (h'.step d e (.snippet name content path moduleName options)).2.1 := by
  have hsi := hs.sessions i s (getElem?_of_session? ht.session)
  have hsi' := hs'.sessions i' s' (getElem?_of_session? ht.session')
  rw [step_snippet ht.session, step_snippet ht.session', ht.world]
  have hr := fun t : Session σ => t.register_eq (e := e) h.world.disk
    [Session.pathOfSnippet d content path options]
    (.table (.ofList [(Session.pathOfSnippet d content path options, content)])) options
  cases hset : WorkingSet.of? [Session.pathOfSnippet d content path options]
    (.table (.ofList [(Session.pathOfSnippet d content path options, content)])) options with
  | error err =>
    simp only [hset] at hr
    rw [Session.snippet_of_error (hr s), Session.snippet_of_error (hr s')]
    exact ⟨⟨s, s', ht.next ht.orderly ht.twin ht.builds⟩, .refl _⟩
  | ok set =>
    simp only [hset] at hr
    have hplain := WorkingSet.plain_of? hset
    obtain ⟨hext, hplaces⟩ := ht.twin.homed.registerFiles (e := e) h.world.disk hplain
    obtain ⟨hext', hplaces'⟩ := ht.twin.homed'.registerFiles (e := e) h.world.disk hplain
    have hfits : ∀ fp, (s.registerFiles e h.world.disk set).1.fingerprint? d
        (set.origin.source h.world) (Session.pathOfSnippet d content path options, moduleName) =
          some fp → fp.Proper d K :=
      hproper ⟨_, Session.pathOfSnippet d content path options, moduleName⟩
        (request?_snippet_of_ok ht.session (hr s) moduleName)
    have hsame : (s'.registerFiles e h.world.disk set).1.set =
        (s.registerFiles e h.world.disk set).1.set := rfl
    have hemit := (ht.twin.registerFiles (e := e) hplain).emit he hd hp ht.orderly hsame
      (hsi.registerFiles he.toKeeps h.world.disk set) (.inr rfl) hplaces
      (hsi'.registerFiles he.toKeeps h.world.disk set) (.inr rfl) hplaces' hfits
    rw [Session.snippet_of_ok (hr s), Session.snippet_of_ok (hr s')]
    exact ht.settle hemit (Session.orderly_emit ht.orderly _ _ _ _)
      (fun b hb => (hext.places b hb).emit d e h.world _ _ _)
      fun b hb => (hext'.places b hb).emit d e h.world _ _ _

include he hd hp in
/-- **Steps of the session answer the same on twins, and leave twins.** -/
theorem Twins.step (hs : h.Sound L) (hs' : h'.Sound L) (hx : h.Solo d e K name directory x) :
    (∃ s₁ s₁', Twins d K name directory (h.step d e x).1 (h'.step d e x).1 i i' s₁ s₁') ∧
      Answer.Same (h.step d e x).2.1 (h'.step d e x).2.1 := by
  obtain ⟨hx, hproper⟩ := hx
  cases x with
  | edit path content =>
    refine ⟨⟨s, s', ?_⟩, .refl _⟩
    have hdisk := h.world.disk_edit path content
    constructor
    case world => exact congrArg (·.edit path content) ht.world
    case orderly => exact hdisk ▸ ht.orderly
    case session => exact ht.session
    case session' => exact ht.session'
    case twin => exact hdisk ▸ ht.twin
    case builds => exact ht.builds
  | change disk =>
    refine ⟨⟨s, s', ?_, hx.1, ht.session, ht.session', ht.twin.of_agrees hx.2 hp, ht.builds⟩,
      .refl _⟩
    exact congrArg (fun w : World => { w with disk }) ht.world
  | openSession | bind | save | peek => exact hx.elim
  | register session build paths origin options =>
    cases hx
    exact ht.register build paths origin options
  | emit build path moduleName => exact ht.emit he hd hp hs hs' build path moduleName hproper
  | snippet session content path moduleName options =>
    cases hx
    exact ht.snippet he hd hp hs hs' content path moduleName options hproper
  | clear session =>
    cases hx
    rw [step_clear ht.session, step_clear ht.session', ht.world]
    exact ⟨⟨_, _, ht.next ht.orderly ht.twin.clear fun m =>
      (ht.builds m).mono (fun _ => id) fun _ => id⟩, .refl _⟩

/-! ## Runs -/

include he hd hp in
/-- **Runs of the session answer the same on twins, and leave the same world.** -/
theorem Twins.run (hs : h.Sound L) (hs' : h'.Sound L)
    (hl : h.Along d e (Solo d e K name directory) l) :
    List.Forall₂ Answer.Same ((h.run d e l).2.map Prod.fst) ((h'.run d e l).2.map Prod.fst) ∧
      (h'.run d e l).1.world = (h.run d e l).1.world := by
  induction l generalizing h h' s s' with
  | nil => exact ⟨.nil, ht.world⟩
  | cons x l ih =>
    obtain ⟨⟨s₁, s₁', ht₁⟩, hanswer⟩ := ht.step he hd hp hs hs' hl.1
    obtain ⟨hanswers, hworld⟩ := ih ht₁ (hs.step he.toKeeps x) (hs'.step he.toKeeps x) hl.2
    exact ⟨.cons hanswer hanswers, hworld⟩

end Steps

theorem Sound.run (hk : e.Keeps L) (hs : h.Sound L) (l : List Step) : (h.run d e l).1.Sound L := by
  induction l generalizing h with
  | nil => exact hs
  | cons x l ih => exact ih (hs.step hk x)

/-! ## Sessions that are opened again -/

/-- A host in a world, with a session on a cache directory under a name. -/
def opened (w : World) (name directory : String) : Host σ :=
  { (new : Host σ) with world := w }.openSession name (.onDisk directory)

/-- The steps that open the session under a name again, and register again what was registered. -/
def restart (name directory : String) (pre : List Step) : List Step :=
  .openSession name (some directory) :: pre.filter Step.isRegister

theorem Sound.alone (hs : h.Sound L) (ho : h.world.disk.Orderly directory) (name : String) :
    (h.openSession name (.onDisk directory)).Alone d K name directory h.sessions.length
      (.new (.onDisk directory)) where
  session := by
    change ((h.places.insert name h.sessions.length).get? name).bind
      (fun i => ((h.sessions ++ [_])[i]?).map (i, ·)) = _
    rw [KeyMap.get?_insert_self, Option.bind_some,
      List.getElem?_append_right (Nat.le_refl _), Nat.sub_self]
    rfl
  orderly := ho
  kept := .new d directory h.world.disk
  places m b hb := absurd (hs.places _ b ⟨m, hb⟩) (Nat.lt_irrefl _)

/-- A list of registrations in the session under a name. -/
def Registers (name : String) (l : List Step) : Prop :=
  ∀ x ∈ l, ∃ build paths origin options, x = .register name build paths origin options

theorem Along.registers (hl : h.Along d e (Solo d e K name directory) l) :
    Registers name (l.filter Step.isRegister) := by
  induction l generalizing h with
  | nil => exact fun x hx => absurd hx List.not_mem_nil
  | cons y l ih =>
    intro x hx
    obtain ⟨hx, hr⟩ := List.mem_filter.1 hx
    rcases List.mem_cons.1 hx with rfl | hx
    · have hy := hl.1.ofSession
      cases x with
      | register session build paths origin options => cases hy; exact ⟨_, _, _, _, rfl⟩
      | _ => cases hr
    · exact ih hl.2 x (List.mem_filter.2 ⟨hx, hr⟩)

theorem Registers.solo (hr : Registers name l) (h : Host σ) (directory : String) :
    h.Along d e (Solo d e K name directory) l := by
  induction l generalizing h with
  | nil => trivial
  | cons x l ih =>
    have hrest : Registers name l := fun y hy => hr y (List.mem_cons_of_mem _ hy)
    obtain ⟨build, paths, origin, options, rfl⟩ := hr x List.mem_cons_self
    exact ⟨⟨rfl, fun q hq => by cases hq⟩, ih hrest _⟩

theorem Alone.registers (ha : h.Alone d K name directory i s) (hr : Registers name l) :
    (∃ s₁, (h.run d e l).1.Alone d K name directory i s₁) ∧ (h.run d e l).1.world = h.world := by
  induction l generalizing h s with
  | nil => exact ⟨⟨s, ha⟩, rfl⟩
  | cons x l ih =>
    obtain ⟨build, paths, origin, options, rfl⟩ := hr x List.mem_cons_self
    obtain ⟨hworld, s₁, ha₁⟩ := ha.register (e := e) build paths origin options
    obtain ⟨hrun, hworlds⟩ := ih ha₁ fun y hy => hr y (List.mem_cons_of_mem _ hy)
    exact ⟨hrun, hworlds.trans hworld⟩

/-- Opening the session again, after a flawless run from a host without builds, makes a twin. -/
theorem Alone.restart (ha : h.Alone d K name directory i s) (hk : e.Keeps L) (hd : d.FaithfulOn K)
    (hp : d.Plain) (hs : h.Sound L) (hnew : ∀ m, h.builds.get? m = none) {pre : List Step}
    (hpre : h.Along d e (fun h x => h.Solo d e K name directory x ∧ h.Flawless d e x) pre) :
    (h.run d e pre).1.Sound L ∧ ∃ i' s₁ s₁', Twins d K name directory (h.run d e pre).1
      ((h.run d e pre).1.run d e (restart name directory pre)).1 i i' s₁ s₁' := by
  have hsolo : h.Along d e (Solo d e K name directory) pre := hpre.mono fun _ _ => And.left
  have hsole : ∀ m p, h.builds.get? m = some p → p.1 = i := by
    intro m p hm
    rw [hnew m] at hm
    cases hm
  obtain ⟨⟨s₁, ha₁⟩, hs₁⟩ := ha.run hk hd hp hs hsole hpre
  obtain ⟨-, hbuilds⟩ := builds_run ha.session hsolo
  generalize (h.run d e pre).1 = h₁ at ha₁ hs₁ hbuilds ⊢
  -- what was registered is registered again
  have hopened := hs₁.alone (d := d) (K := K) ha₁.orderly name
  have hregisters := hsolo.registers
  obtain ⟨⟨s₁', ha₁'⟩, hworld⟩ := hopened.registers (e := e) hregisters
  obtain ⟨-, hbuilds'⟩ := builds_run hopened.session (hregisters.solo (K := K) _ directory)
  change _ ∧ ∃ i' t t', Twins d K name directory h₁
    ((h₁.openSession name (.onDisk directory)).run d e (pre.filter Step.isRegister)).1 i i' t t'
  refine ⟨hs₁, _, s₁, s₁', hworld, ha₁.orderly, ha₁.session, ha₁'.session, ?_, fun m => ?_⟩
  · have hkept := ha₁'.kept
    rw [hworld] at hkept
    exact ha₁.kept.trans hkept.symm
  · have hm := hbuilds m
    have hm' := hbuilds' m
    rw [lastSet?_filter] at hm'
    change (_ ∧ _ = h₁.builds.get? m) ∨ _ at hm'
    rcases hm with ⟨hnone, hb⟩ | ⟨b, hset, hb⟩
    · rw [hnone, hb, hnew m] at hm'
      rcases hm' with ⟨-, hb'⟩ | ⟨b', hset', -⟩
      · rw [hb, hb', hnew m]
        exact .none
      · cases hset'
    · rw [hset] at hm'
      rcases hm' with ⟨hnone, -⟩ | ⟨b', hset', hb'⟩
      · cases hnone
      · rw [hb, hb']
        exact .some (Option.some.inj hset').symm (ha₁.places m b hb) (ha₁'.places m b' hb')

/-- **Nobody can tell whether a session was opened again**, for any steady compiler: after a
flawless run on a cache directory, opening the session again and registering again what was
registered changes no later answer, and no later state of the world. -/
theorem answers_restart (he : e.Steady L) (hd : d.FaithfulOn K) (hp : d.Plain) {w : World}
    (ho : w.disk.Orderly directory) {pre post : List Step}
    (hpre : (opened w name directory).Along d e
      (fun h x => h.Solo d e K name directory x ∧ h.Flawless d e x) pre)
    (hpost : ((opened w name directory).run d e pre).1.Along d e (Solo d e K name directory) post) :
    let h := ((opened w name directory).run d e pre).1
    let h' := (h.run d e (restart name directory pre)).1
    List.Forall₂ Answer.Same ((h.run d e post).2.map Prod.fst) ((h'.run d e post).2.map Prod.fst) ∧
      (h'.run d e post).1.world = (h.run d e post).1.world := by
  have hsound : ({ (new : Host σ) with world := w }).Sound L := Sound.new.of_world w
  have hopened := hsound.alone (d := d) (K := K) ho name
  obtain ⟨hs, i', s, s', ht⟩ := hopened.restart he.toKeeps hd hp (hsound.openSession name _)
    (fun _ => rfl) hpre
  exact ht.run he hd hp hs (hs.run he.toKeeps _) hpost

end Host

/-! ## The compiler of the small language -/

namespace Mini

open Host (opened restart Along Solo Flawless)

/-- **Restarts cannot be seen**: after a flawless run of a session on a cache directory, opening the
session again and registering again what was registered changes no later answer, and no later state
of the world. -/
theorem restart_unseen {d : Digest} {K : ByteArray → Prop} (hd : d.FaithfulOn K) (hp : d.Plain)
    {w : World} {name directory : String} (ho : w.disk.Orderly directory) {pre post : List Step}
    (hpre : (opened w name directory).Along d engine
      (fun h x => h.Solo d engine K name directory x ∧ h.Flawless d engine x) pre)
    (hpost : ((opened w name directory).run d engine pre).1.Along d engine
      (Solo d engine K name directory) post) :
    let h := ((opened w name directory).run d engine pre).1
    let h' := (h.run d engine (restart name directory pre)).1
    List.Forall₂ Answer.Same ((h.run d engine post).2.map Prod.fst)
        ((h'.run d engine post).2.map Prod.fst) ∧
      (h'.run d engine post).1.world = (h.run d engine post).1.world :=
  Host.answers_restart steady hd hp ho hpre hpost

/-! ## A short run -/

/-- A file is written, registered and emitted. -/
def firstSteps : List Step :=
  [.edit "a.ts" (some "let x = 1;"), .register "" "m" ["a.ts"] .live {}, .emit "m" "a.ts" none]

/-- The file is written and emitted again. -/
def laterSteps : List Step := [.edit "a.ts" (some "let x = 2;"), .emit "m" "a.ts" none]

/-- The host before the first emit. -/
def filed : Host Compiler :=
  ((opened .empty "" "b").run (.brief Host.usualTail) engine (firstSteps.take 2)).1

/-- The build that is emitted. -/
def filedBuild : Build := ⟨⟨["a.ts"], .live, {}⟩, 0, 1⟩

theorem builds_filed : filed.builds.get? "m" = some (1, filedBuild) := by decide +kernel

theorem fingerprint_filed : filedBuild.fingerprint? (.brief Host.usualTail)
    (filedBuild.set.origin.source filed.world) ("a.ts", none) =
      some (.of (.brief Host.usualTail) "let x = 1;" ({} : Options).emit none) := rfl

theorem entryPath_filed : Cache.entryPath "b"
    (Fingerprint.of (.brief Host.usualTail) "let x = 1;" ({} : Options).emit none).key =
      "b/entries/-\x0bĀĀĀĀĀĀĀ=let x = 1;.rkyv" := by decide +kernel

theorem flawless_filed : filed.Flawless (.brief Host.usualTail) engine (.emit "m" "a.ts" none) where
  writes := by
    intro i b s hb hs slot hslot content em hc hw
    cases builds_filed.symm.trans hb
    have hcontent : content = "let x = 1;" := by
      have hfp := fingerprint_filed
      unfold Build.fingerprint? at hfp
      rw [hc] at hfp
      exact (Fingerprint.of_inj ((Digest.brief_faithful _).separates _ _)
        (Option.some.inj hfp)).1
    have hdirectory : (filed.sessions[1]?).bind (·.cache.directory) = some "b" := by decide +kernel
    have hfile : (filed.sessions[1]?).bind (fun s => (s.slots[0]?).bind (·.tableFile)) =
        some (Slot.tablePath "b" "os") := by decide +kernel
    rw [hs] at hdirectory hfile
    rw [Option.bind_some, show s.slots[0]? = some slot from hslot] at hfile
    change s.cache.directory = some "b" at hdirectory
    change slot.tableFile = some (Slot.tablePath "b" "os") at hfile
    subst hcontent
    constructor
    · intro _ dir hdir
      cases hdirectory.symm.trans hdir
      exact (congrArg (fun p => (Disk.empty.writeUnder p _).2) entryPath_filed).trans rfl
    · intro _ file hf
      rw [Desk.tableFile_workOf] at hf
      cases hfile.symm.trans hf
      rcases (Desk.way_workOf (d := .brief Host.usualTail) (e := engine)
        ⟨slot, s.cache, filed.world.disk⟩ (Origin.source filed.world) filedBuild "a.ts" "let x = 1;"
        none).disk_eq with hdisk | ⟨dir, hdir, body, hdisk⟩
      · rw [hdisk]
        rfl
      · cases hdirectory.symm.trans hdir
        rw [hdisk]
        exact (congrArg (fun p => ((Disk.empty.writeUnder p body).1.writeUnder
          (Slot.tablePath "b" "os") _).2) entryPath_filed).trans rfl
  answers := by
    have hsome : (filed.step (.brief Host.usualTail) engine
        (.emit "m" "a.ts" none)).2.1.emission?.isSome = true := by decide +kernel
    obtain ⟨em, calls, hanswer⟩ := Answer.exists_emission hsome
    rw [hanswer]
    intro err herr
    cases herr

theorem solo_emit {h : Host Compiler} {content : String}
    (hb : h.builds.get? "m" = some (1, filedBuild))
    (hfp : filedBuild.fingerprint? (.brief Host.usualTail) (filedBuild.set.origin.source h.world)
      ("a.ts", none) = some (.of (.brief Host.usualTail) content ({} : Options).emit none))
    (hs : (Fingerprint.of (.brief Host.usualTail) content ({} : Options).emit none).Sized) :
    h.Solo (.brief Host.usualTail) engine (fun _ => True) "" "b" (.emit "m" "a.ts" none) where
  ofSession := trivial
  proper q hq fp hfp' := by
    rw [Host.request?_emit, hb] at hq
    cases hq
    cases hfp.symm.trans hfp'
    exact ⟨hs, trivial, _, _, _, rfl⟩

/-- What is emitted after the file was written again does not tell whether the session was opened
again. -/
theorem restart_unseen_short :
    let h := ((opened .empty "" "b").run (.brief Host.usualTail) engine firstSteps).1
    let h' := (h.run (.brief Host.usualTail) engine (restart "" "b" firstSteps)).1
    List.Forall₂ Answer.Same
        ((h.run (.brief Host.usualTail) engine laterSteps).2.map Prod.fst)
        ((h'.run (.brief Host.usualTail) engine laterSteps).2.map Prod.fst) ∧
      (h'.run (.brief Host.usualTail) engine laterSteps).1.world =
        (h.run (.brief Host.usualTail) engine laterSteps).1.world := by
  have hfirst : (Fingerprint.of (.brief Host.usualTail) "let x = 1;" ({} : Options).emit
    none).Sized := ⟨by decide +kernel, by decide +kernel, nofun⟩
  have hlater : (Fingerprint.of (.brief Host.usualTail) "let x = 2;" ({} : Options).emit
    none).Sized := ⟨by decide +kernel, by decide +kernel, nofun⟩
  have horderly : (World.empty.disk).Orderly "b" := Disk.linkless_empty.orderly (by decide)
  refine restart_unseen (Digest.brief_faithful _) (Digest.brief_plain _) horderly ?_ ?_
  · refine ⟨⟨⟨trivial, fun q hq => by cases hq⟩, trivial, fun err herr => by cases herr⟩,
      ⟨⟨rfl, fun q hq => by cases hq⟩, .register _ _ _ _ _ _⟩,
      ⟨solo_emit builds_filed fingerprint_filed hfirst, flawless_filed⟩, trivial⟩
  · refine ⟨⟨trivial, fun q hq => by cases hq⟩, solo_emit ?_ ?_ hlater, trivial⟩
    · decide +kernel
    · decide +kernel

/-! ## A directory on the way that is made later -/

/-- A disk with the table of an earlier session below `b`. -/
def tabled : Disk :=
  (Disk.empty.writeUnder "b/versions/os.json"
    (.ofText (Tracker.text ⟨.ofList [("a.ts", ⟨5, "x"⟩)], false⟩))).1

/-- A session whose directory leads over a directory that is missing registers a file in there, and
then the file is written. -/
def detourSteps : List Step :=
  [.register "" "m" ["a.ts"] (.directory "n") {},
    .change (tabled.writeUnder "n/a.ts" (.ofText "let x = 1;")).1]

/-- The host after these steps. -/
def detoured : Host Compiler :=
  ((opened ⟨.empty, tabled⟩ "" "n/../b").run (.brief Host.usualTail) engine detourSteps).1

/-- **A restart can be seen if the path of the cache directory has two points**: the table of the
session is missing as long as a directory on the way is, and once that is made only a session that
is opened again finds the versions of the table. -/
theorem restart_seen : (Digest.brief Host.usualTail).Faithful ∧
    (opened ⟨.empty, tabled⟩ "" "n/../b").Along (.brief Host.usualTail) engine
      (Flawless (.brief Host.usualTail) engine) detourSteps ∧
    ∃ em em',
      (detoured.step (.brief Host.usualTail) engine (.emit "m" "a.ts" none)).2.1 =
        .emitted (.ok em) ∧ em.unit.version = 1 ∧
      ((detoured.run (.brief Host.usualTail) engine (restart "" "n/../b" detourSteps)).1.step
        (.brief Host.usualTail) engine (.emit "m" "a.ts" none)).2.1 =
          .emitted (.ok em') ∧ em'.unit.version = 6 := by
  have hkept : (detoured.step (.brief Host.usualTail) engine
      (.emit "m" "a.ts" none)).2.1.emission?.map (·.unit.version) = some 1 := by decide +kernel
  have hagain : ((detoured.run (.brief Host.usualTail) engine
      (restart "" "n/../b" detourSteps)).1.step (.brief Host.usualTail) engine
        (.emit "m" "a.ts" none)).2.1.emission?.map (·.unit.version) = some 6 := by decide +kernel
  refine ⟨Digest.brief_faithful _, ⟨.register _ _ _ _ _ _, ⟨trivial, fun err herr => by cases herr⟩,
    trivial⟩, ?_⟩
  obtain ⟨em, hem, hversion⟩ := Option.map_eq_some_iff.1 hkept
  obtain ⟨em', hem', hversion'⟩ := Option.map_eq_some_iff.1 hagain
  exact ⟨em, em', Answer.eq_of_emission? hem, hversion, Answer.eq_of_emission? hem', hversion'⟩

end Mini

end CompileCache
