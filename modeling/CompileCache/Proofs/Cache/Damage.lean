import CompileCache.Proofs.Cache.Steps

/-!
# Damage — a cache on files that others spoil

* `Cache.Site.HonestStep`, `Cache.Site.Honest`: others do what they like with the files, except
  that they make no entry. `Cache.Site.stored`: what a run stored.
* `Cache.Recorded`: every entry was stored. **`Cache.Recorded.step`**: every step keeps this.
* **`Cache.Site.step_get_error_iff`**: when a lookup fails; `Cache.Site.step_get_of_error`,
  `Cache.Site.contains_fetch`: a lookup that fails leaves all as it was.
* `Cache.Site.Leaves`: steps after which a stored artifact is still the last one;
  **`Cache.Site.handed_run_of_leaves`**: then it is found, whatever the files are.
* **`Cache.withstands_run`**: damage to the files causes misses only.
-/

namespace CompileCache.Cache

variable {ε : Type} {f : CacheError → ε} {F : Fingerprint → Prop} {s : Site}
  {fp fp' : Fingerprint} {u : Artifact} {validate : Option Artifact → Except ε Validation}

namespace Site

/-! ## Runs -/

/-- A step that uses these fingerprints. Somebody who changes the disk makes no entry: files may be
removed, garbled and copied. -/
def HonestStep (F : Fingerprint → Prop) (s : Site) : Op ε → Prop
  | .save fp _ | .get fp _ => F fp
  | .clear | .bind _ | .renew _ => True
  | .change disk => ∀ e, disk.HasEntry e → s.disk.HasEntry e

/-- A run of such steps. -/
def Honest (f : CacheError → ε) (F : Fingerprint → Prop) (s : Site) : List (Op ε) → Prop
  | [] => True
  | op :: rest => s.HonestStep F op ∧ (s.step f op).1.Honest f F rest

/-- What a run stored, under which fingerprints. -/
def stored (f : CacheError → ε) (s : Site) : List (Op ε) → List (Fingerprint × Artifact)
  | [] => []
  | op :: rest => (s.stores? f op).toList ++ (s.step f op).1.stored f rest

end Site

/-! ## Entries -/

/-- Every entry was stored, and is in memory under its key. -/
structure Recorded (F : Fingerprint → Prop) (s : Site) (log : List (Fingerprint × Artifact)) :
    Prop where
  keyed : s.cache.WellKeyed
  known : ∀ e, s.cache.Holds s.disk e → (e.fingerprint, e.unit) ∈ log
  within : ∀ x ∈ log, F x.1

variable {log : List (Fingerprint × Artifact)}

theorem Recorded.mem_of_handed (hr : Recorded F s log)
    (hinj : Distinct F) (hf : F fp)
    (h : s.handed fp = some u) : (fp, u) ∈ log := by
  obtain ⟨e, he, hkey, rfl⟩ := exists_of_lookup? hr.keyed h
  have hmem := hr.known e he
  obtain rfl := hinj hf (hr.within _ hmem) hkey
  exact hmem

theorem Recorded.fetch (hr : Recorded F s log) (fp : Fingerprint) :
    Recorded F (s.fetch fp) log where
  keyed := hr.keyed.fetch s.disk fp
  known e he := hr.known e (holds_fetch he)
  within := hr.within

theorem Recorded.save (hr : Recorded F s log) (hf : F fp) (u : Artifact) :
    Recorded F (s.save fp u) (log ++ [(fp, u)]) where
  keyed := hr.keyed.save s.disk fp u
  known e he := by
    rcases holds_save he with he | rfl
    · exact List.mem_append_left _ (hr.known e he)
    · exact List.mem_append_right _ (List.mem_singleton.2 rfl)
  within x hx := by
    rcases List.mem_append.1 hx with hx | hx
    · exact hr.within x hx
    · rw [List.mem_singleton.1 hx]
      exact hf

theorem Recorded.mono (hr : Recorded F s log) {s' : Site}
    (hm : ∀ key e, s'.cache.memory.get? key = some e → s.cache.memory.get? key = some e)
    (hd : ∀ e, s'.disk.HasEntry e → s.disk.HasEntry e) : Recorded F s' log where
  keyed key e h := hr.keyed key e (hm key e h)
  known e he := hr.known e (he.imp (fun ⟨key, h⟩ => ⟨key, hm key e h⟩) (hd e))
  within := hr.within

/-- **Every step records what it stores**, and adds no other entry. -/
theorem Recorded.step (hr : Recorded F s log) {op : Op ε} (hop : s.HonestStep F op) :
    Recorded F (s.step f op).1 (log ++ (s.stores? f op).toList) := by
  have hquiet : ∀ {s' : Site}, Recorded F s' log →
      Recorded F s' (log ++ (none : Option (Fingerprint × Artifact)).toList) := by
    intro s' h
    rwa [Option.toList_none, List.append_nil]
  cases op with
  | save fp u => exact hr.save hop u
  | get fp validate =>
    rw [Site.step_get, Site.stores?_get]
    cases (verdict f validate (s.handed fp)).2 with
    | none => exact hquiet (hr.fetch fp)
    | some u => exact (hr.fetch fp).save hop u
  | clear => exact hquiet (hr.mono (fun _ _ h => by cases h) fun _ he => he)
  | bind directory =>
    refine hquiet ?_
    dsimp only [Site.step, Cache.bind]
    split
    · exact hr
    · exact hr.mono (fun _ _ h => by cases h) fun _ he => he
  | renew directory => exact hquiet (hr.mono (fun _ _ h => by cases h) fun _ he => he)
  | change disk => exact hquiet (hr.mono (fun _ _ h => h) hop)

theorem Recorded.run {ops : List (Op ε)} (hr : Recorded F s log) (hops : s.Honest f F ops) :
    Recorded F (s.run f ops).1 (log ++ s.stored f ops) := by
  induction ops generalizing s log with
  | nil => rwa [Site.stored, List.append_nil]
  | cons op rest ih =>
    rw [Site.stored, ← List.append_assoc]
    exact ih (hr.step hops.1) hops.2

theorem recorded_new {directory : Option String} {d : Disk} (hd : ∀ e, ¬d.HasEntry e) :
    Recorded F ⟨⟨directory, .empty⟩, d⟩ [] where
  keyed := wellKeyed_of_empty
  known e he := by
    rcases he with ⟨key, h⟩ | h
    · cases h
    · exact absurd h (hd e)
  within x hx := by cases hx

/-! ## Lookups that fail -/

theorem verdict_fst_eq_error_iff {found : Option Artifact} {err : ε} :
    (verdict f validate found).1 = .error err ↔ validate found = .error err ∨ found = none ∧
      (validate none = .ok .reuse ∧ f .reuseOnMiss = err ∨
        (∃ diagnostics dependencies, validate none = .ok (.patch diagnostics dependencies)) ∧
          f .patchOnMiss = err) := by
  unfold verdict
  cases hv : validate found with
  | error err' =>
    cases found <;> simp [hv]
  | ok v => cases v <;> cases found <;> simp [hv]

theorem verdict_snd_of_error {found : Option Artifact} {err : ε}
    (h : (verdict f validate found).1 = .error err) : (verdict f validate found).2 = none := by
  revert h
  unfold verdict
  split <;> first | exact fun _ => rfl | exact nofun

namespace Site

/-- **When a lookup fails**: its validation does, or asks for what is not there. -/
theorem step_get_error_iff {err : ε} :
    (s.step f (.get fp validate)).2 = .got (s.handed fp) (.error err) ↔
      validate (s.handed fp) = .error err ∨ s.handed fp = none ∧
        (validate none = .ok .reuse ∧ f .reuseOnMiss = err ∨
          (∃ diagnostics dependencies, validate none = .ok (.patch diagnostics dependencies)) ∧
            f .patchOnMiss = err) := by
  rw [step_get, ← verdict_fst_eq_error_iff]
  exact ⟨fun h => (Reply.got.inj h).2, fun h => congrArg (Reply.got (s.handed fp)) h⟩

theorem step_get_of_error {err : ε}
    (h : (s.step f (.get fp validate)).2 = .got (s.handed fp) (.error err)) :
    (s.step f (.get fp validate)).1 = s.fetch fp := by
  rw [step_get] at h ⊢
  dsimp only
  rw [verdict_snd_of_error (Reply.got.inj h).2]

/-- Whether there is an entry for a fingerprint in memory, or a file of its name. -/
def contains (s : Site) (fp : Fingerprint) : Bool := s.cache.contains s.disk fp

theorem contains_fetch (s : Site) (fp fp' : Fingerprint) :
    (s.fetch fp).contains fp' = s.contains fp' := by
  unfold contains Cache.contains entryPath? fetch
  rw [directory_fetch]
  unfold Cache.fetch
  split
  · rfl
  · split
    · rfl
    · next e he =>
      obtain ⟨-, dir, hdir, hread⟩ := load?_eq_some_iff.1 he
      have hfile := Disk.isFile_of_read hread
      rw [Option.mem_def.1 hdir]
      unfold KeyMap.contains
      rw [KeyMap.get?_insert]
      split
      · next hkey => rw [hkey, Option.map_some, Option.any_some, hfile, Bool.or_true, Bool.or_true]
      · rfl

/-! ## Artifacts that stay the last ones -/

/-- A step after which an artifact of a fingerprint is still the last one: it does not empty the
memory, and stores under other fingerprints only. -/
def Leaves (f : CacheError → ε) (F : Fingerprint → Prop) (fp : Fingerprint) (s : Site) :
    Op ε → Prop
  | .clear | .renew _ => False
  | .bind directory => s.cache.directory.map Path.components = some (Path.components directory)
  | .save fp' _ => F fp' ∧ fp' ≠ fp
  | .get fp' validate => s.stores? f (.get fp' validate) = none ∨ F fp' ∧ fp' ≠ fp
  | .change _ => True

/-- A run of such steps. -/
def LeavesAll (f : CacheError → ε) (F : Fingerprint → Prop) (fp : Fingerprint) (s : Site) :
    List (Op ε) → Prop
  | [] => True
  | op :: rest => s.Leaves f F fp op ∧ (s.step f op).1.LeavesAll f F fp rest

theorem held?_fetch {c : Cache} {d : Disk} (h : c.held? fp = some u) :
    (c.fetch d fp').held? fp = some u := by
  by_cases hkey : fp.key = fp'.key
  · obtain ⟨e, he, -⟩ := Option.map_eq_some_iff.1 h
    unfold Cache.fetch
    rwa [if_pos (by rw [← hkey, KeyMap.contains, he]; rfl)]
  · rw [held?_fetch_of_ne c d hkey, h]

theorem held?_step (hinj : Distinct F) (hf : F fp)
    (h : s.cache.held? fp = some u) {op : Op ε} (hl : s.Leaves f F fp op) :
    (s.step f op).1.cache.held? fp = some u := by
  have hsave : ∀ {s : Site} {fp' u'}, F fp' ∧ fp' ≠ fp → s.cache.held? fp = some u →
      (s.save fp' u').cache.held? fp = some u := by
    intro s fp' u' hf' h
    exact (held?_save_of_ne s.cache s.disk u' fun hkey => hf'.2 (hinj hf hf'.1 hkey.symm)).trans h
  cases op with
  | save fp' u' => exact hsave hl h
  | get fp' validate =>
    have hfetch : (s.fetch fp').cache.held? fp = some u := held?_fetch h
    rw [Leaves, stores?_get] at hl
    rw [step_get]
    cases hv : (verdict f validate (s.handed fp')).2 with
    | none => exact hfetch
    | some u' =>
      rw [hv] at hl
      exact hsave (hl.resolve_left nofun) hfetch
  | clear | renew directory => exact hl.elim
  | bind directory =>
    rw [Leaves, ← any_same_iff] at hl
    dsimp only [step, Cache.bind]
    rwa [if_pos hl]
  | change disk => exact h

/-- **An artifact that stays the last one is found**, whatever the files are. -/
theorem handed_run_of_leaves (hinj : Distinct F)
    (hf : F fp) (h : s.cache.held? fp = some u) {ops : List (Op ε)}
    (hl : s.LeavesAll f F fp ops) : (s.run f ops).1.handed fp = some u := by
  induction ops generalizing s with
  | nil => exact lookup?_of_held? h s.disk
  | cons op rest ih => exact ih (held?_step hinj hf h hl.1) hl.2

theorem held?_step_of_stores? {op : Op ε} (h : s.stores? f op = some (fp, u)) :
    (s.step f op).1.cache.held? fp = some u := by
  cases op with
  | save fp' u' =>
    cases h
    exact held?_save_self s.cache s.disk fp u
  | get fp' validate =>
    rw [stores?_get] at h
    obtain ⟨u', hu', hpair⟩ := Option.map_eq_some_iff.1 h
    cases hpair
    rw [step_get, hu']
    exact held?_save_self (s.fetch fp).cache (s.fetch fp).disk fp u
  | clear | bind | renew | change => cases h

end Site

/-! ## Misses only -/

/-- What a cache does whatever has become of its files. -/
structure Withstands (f : CacheError → ε) (F : Fingerprint → Prop) (s : Site)
    (log : List (Fingerprint × Artifact)) : Prop where
  /-- What is found was stored under this very fingerprint. -/
  found : ∀ fp u, F fp → s.handed fp = some u → (fp, u) ∈ log
  /-- A lookup fails if its validation does, or asks for what is not there. -/
  fails : ∀ fp validate err,
    (s.step f (.get fp validate)).2 = .got (s.handed fp) (.error err) ↔
      validate (s.handed fp) = .error err ∨ s.handed fp = none ∧
        (validate none = .ok .reuse ∧ f .reuseOnMiss = err ∨
          (∃ diagnostics dependencies, validate none = .ok (.patch diagnostics dependencies)) ∧
            f .patchOnMiss = err)
  /-- What is stored is found as long as it is the last one. -/
  stays : ∀ op fp u rest, F fp → s.stores? f op = some (fp, u) →
    (s.step f op).1.LeavesAll f F fp rest →
      ((s.step f op).1.run f rest).1.handed fp = some u
  /-- A lookup that fails leaves all as it was. -/
  unchanged : ∀ fp validate err, F fp →
    (s.step f (.get fp validate)).2 = .got (s.handed fp) (.error err) →
      (s.step f (.get fp validate)).1.disk = s.disk ∧
      (∀ fp', (s.step f (.get fp validate)).1.contains fp' = s.contains fp') ∧
      ∀ fp', F fp' → (s.step f (.get fp validate)).1.handed fp' = s.handed fp'

/-- **Damage to the files causes misses only**, at all times of a run in which others change them as
they like, but make no entry. -/
theorem withstands_run (hinj : Distinct F)
    {directory : Option String} {d : Disk} {ops : List (Op ε)} (hd : ∀ e, ¬d.HasEntry e)
    (hops : Site.Honest f F ⟨⟨directory, .empty⟩, d⟩ ops) :
    Withstands f F (Site.run f ⟨⟨directory, .empty⟩, d⟩ ops).1
      (Site.stored f ⟨⟨directory, .empty⟩, d⟩ ops) := by
  have hr := (recorded_new hd).run hops
  rw [List.nil_append] at hr
  refine ⟨fun fp u hf h => hr.mem_of_handed hinj hf h, fun _ _ _ => Site.step_get_error_iff,
    fun op fp u rest hf hst hl => ?_, fun fp validate err hf h => ?_⟩
  · exact Site.handed_run_of_leaves hinj hf (Site.held?_step_of_stores? hst) hl
  · rw [Site.step_get_of_error h]
    refine ⟨rfl, fun fp' => Site.contains_fetch _ fp fp', fun fp' hf' => lookup?_fetch_eq _ _ ?_⟩
    by_cases hkey : fp'.key = fp.key
    · exact .inl (hinj hf hf' hkey)
    · exact .inr hkey

/-! ## A run on a spoiled disk -/

/-- A disk with a file where the directory of the entries should be. -/
def spoiled : Disk := (Disk.empty.writeUnder "a/entries" (.bytes .empty)).1

theorem not_hasEntry_spoiled (e : Entry) : ¬spoiled.HasEntry e := by
  intro h
  rcases Disk.hasEntry_writeUnder h with h | h
  · exact Disk.not_hasEntry_empty e h
  · cases h

/-- An artifact is stored, the disk is spoiled, and another one cannot be written. -/
def spoiling : List (Op CacheError) :=
  [.save (printOf "x") (artifactAt "x.ts"), .change spoiled,
    .get (printOf "y") fun _ => .ok (.patch .empty .empty), .save (printOf "y") (artifactAt "y.ts")]

/-- A cache withstands this, and hands out what could not be written. -/
theorem withstands_spoiling :
    Withstands id (· ∈ fewPrints) (Site.run id ⟨⟨some "a", .empty⟩, .empty⟩ spoiling).1
      [(printOf "x", artifactAt "x.ts"), (printOf "y", artifactAt "y.ts")] := by
  have hx : printOf "x" ∈ fewPrints := List.mem_cons_self
  have hy : printOf "y" ∈ fewPrints := List.mem_cons_of_mem _ List.mem_cons_self
  have hhonest : Site.Honest id (· ∈ fewPrints) ⟨⟨some "a", .empty⟩, .empty⟩ spoiling :=
    ⟨hx, fun e he => absurd he (not_hasEntry_spoiled e), hy, hy, trivial⟩
  exact withstands_run distinct_fewPrints Disk.not_hasEntry_empty hhonest

end CompileCache.Cache
