import CompileCache.Proofs.Run.Log
import CompileCache.Proofs.Session.Sound

/-!
# Provenance — where stored artifacts come from

* `Event.Issues`: an event leaves an entry; `Event.Offers`: an event can have left what another one
  finds.
* `Host.Holds`, `Host.Traced`: the entries of a host, each of them left by an event of a log.
* **`Host.Traced.step`**: an honest step keeps them so, the log being continued.
* `Event.Explained`: an emission, told by the compiler and by what earlier events left.
* **`Host.grounded_events`**: every event of an honest run is explained by those before it.
-/

namespace CompileCache

variable {σ : Type} {d : Digest} {e : Engine σ} {L : σ → WorkingSet → Prop}

/-- An event leaves an entry. -/
def Event.Issues (d : Digest) (ev : Event) (x : Entry) : Prop :=
  ev.emission.outcome ≠ .reuse ∧ ev.fingerprint? d = some x.fingerprint ∧
    ev.emission.unit = { x.unit with version := ev.emission.unit.version }

/-- An event can have left the artifact that another event finds. -/
def Event.Offers (d : Digest) (ev' ev : Event) (u : Artifact) : Prop :=
  ev'.emission.outcome ≠ .reuse ∧
    (∃ fp' fp, ev'.fingerprint? d = some fp' ∧ ev.fingerprint? d = some fp ∧ fp'.key = fp.key) ∧
    ev'.emission.unit = { u with version := ev'.emission.unit.version }

/-! ## Sessions -/

namespace Session

variable {s : Session σ} {B : Build → Prop} {w : World} {b : Build} {path : String}
  {moduleName : Option String} {em : Emission}

theorem cache_register (s : Session σ) (disk : Disk) (paths : List String) (origin : Origin)
    (options : Options) : (s.register e disk paths origin options).2.1.cache = s.cache := by
  unfold register
  split
  · rfl
  · split
    · rfl
    · unfold registerFiles slotFor
      cases s.placed? (WorkingSet.mk _ origin options).options.arch <;> rfl

theorem cache_registerSnippet (s : Session σ) (disk : Disk) (content : String)
    (path : Option String) (options : Options) :
    (s.registerSnippet d e disk content path options).2.1.cache = s.cache :=
  cache_register s disk _ _ options

theorem cache_bind (s : Session σ) (directory : String) :
    (s.bind directory).2.cache = s.cache ∨ (s.bind directory).2.cache = .onDisk directory := by
  unfold Session.bind Cache.bind
  split
  · exact .inl rfl
  · next hb =>
    split at hb
    · cases hb
    · cases hb
      exact .inr rfl

theorem account_emit (hk : e.Keeps L) (hs : s.Sound L B) (hb : B b)
    (h : (s.emit d e w b path moduleName).answer = .ok em) :
    b.contains path = true ∧ ∃ content, (b.set.origin.source w).content path = some content ∧
      Desk.Account d e L (fun u => s.cache.lookup? w.disk (.of d content b.set.options.emit
        moduleName) = some u) (Origin.source w) b path moduleName em := by
  obtain ⟨slot, hslot, -, hl⟩ := hs.known b hb
  unfold emit at h
  rw [hslot] at h
  dsimp only at h
  rcases Desk.emit_eq_or (d := d) (e := e) ⟨slot, s.cache, w.disk⟩ (Origin.source w) b path
    moduleName with he | ⟨content, hp, hc, -⟩
  · rw [he] at h; cases h
  · exact ⟨hp, content, hc, Desk.account_emit (k := ⟨slot, s.cache, w.disk⟩) hk hl hc h⟩

theorem holds_emit {x : Entry}
    (hx : (s.emit d e w b path moduleName).session.cache.Holds
      (s.emit d e w b path moduleName).disk x) :
    s.cache.Holds w.disk x ∨ ∃ em, (s.emit d e w b path moduleName).answer = .ok em ∧
      Event.Issues d ⟨⟨b, path, moduleName⟩, w, em⟩ x := by
  unfold emit at hx ⊢
  split at hx
  · exact .inl hx
  · next slot hslot =>
    rcases Desk.holds_emit hx with hx | ⟨content, em, hc, ha, ho, hf, hu⟩
    · exact .inl hx
    · refine .inr ⟨em, ha, ho, ?_, hu⟩
      unfold Event.fingerprint? Event.source
      rw [hc, hf]
      rfl

theorem wellKeyed_emit (hw : s.cache.WellKeyed) :
    (s.emit d e w b path moduleName).session.cache.WellKeyed := by
  unfold emit
  split
  · exact hw
  · exact Desk.wellKeyed_emit hw

end Session

/-! ## Hosts -/

namespace Host

variable {h : Host σ} {i : Nat} {s s' : Session σ} {log log' : Log} {x : Entry}

/-- There is an entry, on disk or in the memory of a session. -/
def Holds (h : Host σ) (x : Entry) : Prop :=
  h.world.disk.HasEntry x ∨ ∃ s ∈ h.sessions, ∃ key, s.cache.memory.get? key = some x

/-- The entries in memory are under their keys, and every entry was left by an event. -/
structure Traced (d : Digest) (h : Host σ) (log : Log) : Prop where
  keyed : ∀ s ∈ h.sessions, s.cache.WellKeyed
  issued : ∀ x, h.Holds x → ∃ ev ∈ log, ev.Issues d x

theorem Holds.of_session (hi : h.sessions[i]? = some s) (hx : s.cache.Holds h.world.disk x) :
    h.Holds x := by
  rcases hx with ⟨key, hk⟩ | hx
  · exact .inr ⟨s, List.mem_of_getElem? hi, key, hk⟩
  · exact .inl hx

theorem Traced.new : (Host.new : Host σ).Traced d [] where
  keyed s hs := by
    rw [List.mem_singleton.1 hs]
    exact Cache.wellKeyed_of_empty
  issued x hx := by
    rcases hx with hx | ⟨s, hs, key, hk⟩
    · exact absurd hx (Disk.not_hasEntry_empty x)
    · rw [List.mem_singleton.1 hs] at hk
      cases hk

theorem Traced.congr (ht : h.Traced d log) {h' : Host σ} (hs : h'.sessions = h.sessions)
    (hw : ∀ x, h'.world.disk.HasEntry x → h.world.disk.HasEntry x) : h'.Traced d log where
  keyed := by rw [hs]; exact ht.keyed
  issued x hx := by
    refine ht.issued x (hx.imp (hw x) fun hm => ?_)
    rw [hs] at hm
    exact hm

theorem Traced.setSession (ht : h.Traced d log) (hi : h.sessions[i]? = some s) {disk : Disk}
    (hlog : ∀ ev ∈ log, ev ∈ log') (hk : s'.cache.WellKeyed)
    (hx : ∀ x, s'.cache.Holds disk x →
      s.cache.Holds h.world.disk x ∨ ∃ ev ∈ log', ev.Issues d x) :
    Traced d { h.setSession i s' with world := { h.world with disk } } log' where
  keyed t hmem := by
    rcases List.mem_or_eq_of_mem_set hmem with hmem | rfl
    · exact ht.keyed t hmem
    · exact hk
  issued x hholds := by
    have before : h.Holds x → ∃ ev ∈ log', ev.Issues d x := by
      intro hb
      obtain ⟨ev, hev, his⟩ := ht.issued x hb
      exact ⟨ev, hlog ev hev, his⟩
    have inside : s'.cache.Holds disk x → ∃ ev ∈ log', ev.Issues d x := by
      intro hs'
      rcases hx x hs' with hs | hs
      · exact before (.of_session hi hs)
      · exact hs
    rcases hholds with hdisk | ⟨t, hmem, key, hkey⟩
    · exact inside (.inr hdisk)
    · rcases List.mem_or_eq_of_mem_set hmem with hmem | rfl
      · exact before (.inr ⟨t, hmem, key, hkey⟩)
      · exact inside (.inl ⟨key, hkey⟩)

theorem Traced.setCache (ht : h.Traced d log) (hi : h.sessions[i]? = some s) {disk : Disk}
    (hk : s'.cache.WellKeyed) (hx : ∀ x, s'.cache.Holds disk x → s.cache.Holds h.world.disk x) :
    Traced d { h.setSession i s' with world := { h.world with disk } } log :=
  ht.setSession hi (fun _ hev => hev) hk fun x hs' => .inl (hx x hs')

theorem Traced.openSession (ht : h.Traced d log) (name : String) {cache : Cache}
    (hc : cache.memory = .empty) : (h.openSession name cache).Traced d log where
  keyed t hmem := by
    rcases List.mem_append.1 hmem with hmem | hmem
    · exact ht.keyed t hmem
    · rw [List.mem_singleton.1 hmem]
      intro key x hk
      change cache.memory.get? key = some x at hk
      rw [hc] at hk
      cases hk
  issued x hx := by
    refine ht.issued x (hx.imp_right ?_)
    rintro ⟨t, hmem, key, hk⟩
    rcases List.mem_append.1 hmem with hmem | hmem
    · exact ⟨t, hmem, key, hk⟩
    · rw [List.mem_singleton.1 hmem] at hk
      change cache.memory.get? key = some x at hk
      rw [hc] at hk
      cases hk

theorem Traced.settled (ht : h.Traced d log) (hi : h.sessions[i]? = some s)
    (hs : s'.cache = s.cache) (q : Request) :
    Traced d (h.settled i (s'.emit d e h.world q.build q.path q.moduleName)).2.1
      (log ++ ((s'.emit d e h.world q.build q.path q.moduleName).answer.toOption.map
        fun em => (⟨q, h.world, em⟩ : Event)).toList) := by
  refine ht.setSession hi (fun ev hev => List.mem_append_left _ hev) ?_ fun x hx => ?_
  · refine Session.wellKeyed_emit ?_
    rw [hs]
    exact ht.keyed s (List.mem_of_getElem? hi)
  · rcases Session.holds_emit hx with hx | ⟨em, ha, his⟩
    · rw [hs] at hx
      exact .inl hx
    · refine .inr ⟨_, List.mem_append_right _ ?_, his⟩
      rw [ha]
      exact List.mem_singleton.2 rfl

theorem Traced.setSession_of_cache (ht : h.Traced d log) (hi : h.sessions[i]? = some s)
    (hs : s'.cache = s.cache) : (h.setSession i s').Traced d log := by
  refine ht.setCache hi ?_ fun x hx => ?_
  · rw [hs]
    exact ht.keyed s (List.mem_of_getElem? hi)
  · rw [hs] at hx
    exact hx

theorem Traced.register (ht : h.Traced d log) (hi : h.sessions[i]? = some s) (name : String)
    (paths : List String) (origin : Origin) (options : Options) :
    (h.register e i s name paths origin options).2.1.Traced d log := by
  have hc := Session.cache_register (e := e) s h.world.disk paths origin options
  unfold Host.register
  split
  · next hr =>
    rw [hr] at hc
    exact ht.setSession_of_cache hi hc
  · next hr =>
    rw [hr] at hc
    exact (ht.setSession_of_cache hi hc).congr rfl fun _ hx => hx

theorem Traced.within (ht : h.Traced d log) {name : String}
    {f : Nat → Session σ → Host σ × Answer × List Call}
    (hf : ∀ i s, h.sessions[i]? = some s → (f i s).1.Traced d log) :
    (h.within name f).1.Traced d log :=
  within_of (P := fun h' => h'.Traced d log) ht hf

theorem Traced.quiet {x : Step} (hq : h.request? d e x = none)
    (ht : (h.step d e x).1.Traced d log) :
    (h.step d e x).1.Traced d (log ++ (h.event? d e x).toList) := by
  rw [event?_of_request?_none hq, Option.toList_none, List.append_nil]
  exact ht

theorem Traced.emit (ht : h.Traced d log) (build path : String) (moduleName : Option String) :
    (h.step d e (.emit build path moduleName)).1.Traced d
      (log ++ (h.event? d e (.emit build path moduleName)).toList) := by
  cases hb : h.builds.get? build with
  | none =>
    refine .quiet (request?_emit_of_none hb path moduleName) ?_
    unfold Host.step
    dsimp only
    rw [hb]
    exact ht
  | some p =>
    rw [event?_of_request? (request?_emit_of hb path moduleName)]
    unfold Host.step
    dsimp only
    rw [hb]
    unfold Host.emit
    dsimp only
    cases hi : h.sessions[p.1]? with
    | none =>
      dsimp only [Answer.emission?, Except.toOption, Option.map_none, Option.toList_none]
      rw [List.append_nil]
      exact ht
    | some s => exact ht.settled hi rfl ⟨p.2, path, moduleName⟩

theorem Traced.snippet (ht : h.Traced d log) (session content : String)
    (path moduleName : Option String) (options : Options) :
    (h.step d e (.snippet session content path moduleName options)).1.Traced d
      (log ++ (h.event? d e (.snippet session content path moduleName options)).toList) := by
  cases hs : h.session? session with
  | none =>
    refine .quiet (request?_snippet_of_none hs moduleName) ?_
    unfold Host.step Host.within
    dsimp only
    rw [hs]
    exact ht
  | some p =>
    obtain ⟨i, s⟩ := p
    have hi := getElem?_of_session? hs
    rcases s.snippet_cases d e h.world content path moduleName options with
      ⟨err, hr, hsnippet⟩ | ⟨b, s', calls, hr, hsnippet⟩
    · refine .quiet (request?_snippet_of_error hs hr moduleName) ?_
      unfold Host.step Host.within Host.snippet
      dsimp only
      rw [hs]
      dsimp only
      rw [hsnippet]
      exact ht.setSession_of_cache hi rfl
    · have hc := Session.cache_registerSnippet (d := d) (e := e) s h.world.disk content path options
      rw [hr] at hc
      rw [event?_of_request? (request?_snippet_of_ok hs hr moduleName)]
      unfold Host.step Host.within Host.snippet
      dsimp only
      rw [hs]
      dsimp only
      rw [hsnippet]
      exact ht.settled hi hc ⟨b, Session.pathOfSnippet d content path options, moduleName⟩

theorem Traced.bind (ht : h.Traced d log) (hi : h.sessions[i]? = some s) (directory : String) :
    (h.setSession i (s.bind directory).2).Traced d log := by
  rcases Session.cache_bind s directory with hc | hc
  · exact ht.setSession_of_cache hi hc
  · generalize (s.bind directory).2 = s' at hc ⊢
    refine ht.setCache hi ?_ fun x hx => ?_
    · rw [hc]
      exact Cache.wellKeyed_of_empty
    · rw [hc] at hx
      exact .inr (hx.resolve_left fun ⟨key, hk⟩ => by cases hk)

/-- **An honest step keeps every entry traced**, the log being continued. -/
theorem Traced.step (ht : h.Traced d log) {x : Step} (hx : h.HonestStep x) :
    (h.step d e x).1.Traced d (log ++ (h.event? d e x).toList) := by
  cases x with
  | edit path content =>
    refine .quiet rfl (ht.congr rfl fun x hx => ?_)
    change (h.world.edit path content).disk.HasEntry x at hx
    unfold World.edit at hx
    split at hx <;> exact hx
  | change disk => exact .quiet rfl (ht.congr rfl hx)
  | openSession name directory =>
    refine .quiet rfl (ht.openSession name ?_)
    cases directory <;> rfl
  | register session build paths origin options =>
    refine .quiet rfl (ht.within fun i s hi => ?_)
    exact ht.register hi build paths origin options
  | emit build path moduleName => exact ht.emit build path moduleName
  | snippet session content path moduleName options =>
    exact ht.snippet session content path moduleName options
  | bind session directory =>
    refine .quiet rfl (ht.within fun i s hi => ?_)
    exact ht.bind hi directory
  | clear session =>
    refine .quiet rfl (ht.within fun i s hi => ?_)
    refine ht.setCache hi Cache.wellKeyed_of_empty fun x hx => ?_
    exact .inr (hx.resolve_left fun ⟨key, hk⟩ => by cases hk)
  | save session fp unit => exact hx.elim
  | peek session fp =>
    refine .quiet rfl (ht.within fun i s hi => ?_)
    have hk := ht.keyed s (List.mem_of_getElem? hi)
    dsimp only
    rw [Cache.get_reuse]
    exact ht.setCache hi (hk.fetch _ fp) fun x hx => Cache.holds_fetch hx

/-! ## Explanations -/

end Host

/-- An emission, told by the compiler and by what the events of a log left. -/
structure Event.Explained (d : Digest) (e : Engine σ) (L : σ → WorkingSet → Prop) (log : Log)
    (ev : Event) : Prop where
  contained : ev.build.contains ev.path = true
  content : ∃ content, ev.source.content ev.path = some content
  account : Desk.Account d e L (fun u => ∃ ev' ∈ log, ev'.Offers d ev u) ev.view ev.build ev.path
    ev.moduleName ev.emission

/-- A log in which every event is explained by those before it. -/
inductive Log.Grounded (d : Digest) (e : Engine σ) (L : σ → WorkingSet → Prop) : Log → Prop
  | nil : Grounded d e L []
  | snoc {log : Log} {ev : Event} (hg : Grounded d e L log) (he : ev.Explained d e L log) :
      Grounded d e L (log ++ [ev])

theorem Log.Grounded.split {pre post : Log} {ev : Event}
    (h : Log.Grounded d e L (pre ++ ev :: post)) :
    Log.Grounded d e L pre ∧ ev.Explained d e L pre := by
  generalize hl : pre ++ ev :: post = log at h
  induction h generalizing post with
  | nil => cases pre <;> cases hl
  | @snoc log ev₀ hg he ih =>
    rcases List.eq_nil_or_concat post with rfl | ⟨post', ev', rfl⟩
    · obtain ⟨rfl, hev⟩ := List.append_inj' hl rfl
      cases hev
      exact ⟨hg, he⟩
    · rw [List.concat_eq_append, ← List.cons_append, ← List.append_assoc] at hl
      have hpre : pre ++ ev :: post' = log := (List.append_inj' hl rfl).1
      exact ih hpre

namespace Host

variable {h : Host σ} {i : Nat} {s s' : Session σ} {B : Build → Prop} {log : Log} {ev : Event}

theorem Traced.explained_settled (hk : e.Keeps L) (ht : h.Traced d log)
    (hi : h.sessions[i]? = some s) (hc : s'.cache = s.cache) (hs : s'.Sound L B) {q : Request}
    (hb : B q.build) {em : Emission}
    (ha : (s'.emit d e h.world q.build q.path q.moduleName).answer = .ok em) :
    Event.Explained d e L log ⟨q, h.world, em⟩ := by
  obtain ⟨hp, content, hcontent, account⟩ := Session.account_emit hk hs hb ha
  refine ⟨hp, ⟨content, hcontent⟩, account.mono fun u hu => ?_⟩
  rw [hc] at hu
  obtain ⟨x, hx, hkey, rfl⟩ := Cache.exists_of_lookup? (ht.keyed s (List.mem_of_getElem? hi)) hu
  obtain ⟨ev', hev', ho, hf, hunit⟩ := ht.issued x (.of_session hi hx)
  refine ⟨ev', hev', ho, ⟨x.fingerprint, _, hf, ?_, hkey⟩, hunit⟩
  unfold Event.fingerprint? Event.source
  rw [hcontent]
  rfl

theorem Traced.explained (hk : e.Keeps L) (hs : h.Sound L) (ht : h.Traced d log) {x : Step}
    (hev : h.event? d e x = some ev) : ev.Explained d e L log := by
  cases x with
  | emit build path moduleName =>
    obtain ⟨q, hq, hem⟩ := Option.bind_eq_some_iff.1 hev
    obtain ⟨em, ha, rfl⟩ := Option.map_eq_some_iff.1 hem
    obtain ⟨p, hb, rfl⟩ := Option.map_eq_some_iff.1 hq
    unfold Host.step at ha
    dsimp only at ha
    rw [hb] at ha
    unfold Host.emit at ha
    dsimp only at ha
    cases hi : h.sessions[p.1]? with
    | none => rw [hi] at ha; cases ha
    | some s =>
      rw [hi] at ha
      exact ht.explained_settled hk hi rfl (hs.sessions _ s hi) ⟨build, hb⟩ (ok_of_toOption ha)
  | snippet session content path moduleName options =>
    obtain ⟨q, hq, hem⟩ := Option.bind_eq_some_iff.1 hev
    obtain ⟨em, ha, rfl⟩ := Option.map_eq_some_iff.1 hem
    obtain ⟨⟨i, s⟩, hp, -⟩ := Option.bind_eq_some_iff.1 hq
    have hi := getElem?_of_session? hp
    rcases s.snippet_cases d e h.world content path moduleName options with
      ⟨err, hr, -⟩ | ⟨b, s', calls, hr, hsnippet⟩
    · cases (request?_snippet_of_error hp hr moduleName).symm.trans hq
    · cases (request?_snippet_of_ok hp hr moduleName).symm.trans hq
      have hc := Session.cache_registerSnippet (d := d) (e := e) s h.world.disk content path options
      rw [hr] at hc
      unfold Host.step Host.within Host.snippet at ha
      dsimp only at ha
      rw [hp] at ha
      dsimp only at ha
      rw [hsnippet] at ha
      have hsound := (hs.sessions i s hi).register hk hr
      exact ht.explained_settled hk hi hc hsound (.inr rfl) (ok_of_toOption ha)
  | _ => cases hev

theorem grounded_of_traced (hk : e.Keeps L) (hs : h.Sound L) (ht : h.Traced d log)
    (hg : log.Grounded d e L) {l : List Step} (hh : h.Honest d e l) :
    (log ++ h.events d e l).Grounded d e L := by
  induction l generalizing h log with
  | nil =>
    unfold events
    rw [List.append_nil]
    exact hg
  | cons x l ih =>
    unfold events
    rw [← List.append_assoc]
    refine ih (hs.step hk x) (ht.step hh.1) ?_ hh.2
    cases hev : h.event? d e x with
    | none =>
      rw [Option.toList_none, List.append_nil]
      exact hg
    | some ev => exact hg.snoc (ht.explained hk hs hev)

/-- **Every event of an honest run is explained by those before it.** -/
theorem grounded_events (hk : e.Keeps L) {l : List Step} (hh : new.Honest d e l) :
    (new.events d e l).Grounded d e L :=
  grounded_of_traced hk .new .new .nil hh

end Host

end CompileCache
