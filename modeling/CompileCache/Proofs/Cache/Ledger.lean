import CompileCache.Proofs.Cache.Steps
import CompileCache.Proofs.Disk.Spelling

/-!
# Ledger — a cache is a plain store

* `Ledger`: all that was stored, with the directory that was bound then. `Ledger.step`,
  `Ledger.run`: what a plain store does and answers.
* `Cache.Keyed`, `Cache.Separate`, `Cache.Op.Within`, `Cache.Site.writesAll`: fingerprints and
  directories that are told apart, and runs in which only the cache touches the files, and can
  write them. **`Cache.Site.separateAll_of_linkless`**: where no link leads to another directory.
* `Cache.Tracks`: memory and files hold what the ledger says. `Cache.Tracks.handed_eq`: then a
  lookup finds what the ledger says; **`Cache.Tracks.step`**: every step keeps it.
* **`Cache.replies_run_eq`**: a cache answers like the ledger.
-/

namespace CompileCache

/-! ## Ledgers -/

/-- An artifact that was stored under a fingerprint while a directory, or none, was bound. -/
structure Deposit where
  directory : Option String
  fingerprint : Fingerprint
  unit : Artifact

/-- Whether a deposit was made under a directory, which may be spelled in another way. -/
def Deposit.isUnder (x : Deposit) (directory : Option String) : Bool :=
  decide (x.directory.map Path.names = directory.map Path.names)

/-- A plain store: the bound directory, and all that was stored, the newest first. -/
structure Ledger where
  directory : Option String
  deposits : List Deposit

namespace Ledger

/-- What was stored last under a fingerprint while a directory was bound. -/
def latest? (l : Ledger) (directory : Option String) (fp : Fingerprint) : Option Artifact :=
  (l.deposits.find? fun x => x.isUnder directory && decide (x.fingerprint = fp)).map (·.unit)

/-- What was stored last under a fingerprint while the bound directory was bound. -/
def found? (l : Ledger) (fp : Fingerprint) : Option Artifact := l.latest? l.directory fp

/-- Stores an artifact. -/
def store (l : Ledger) (fp : Fingerprint) (u : Artifact) : Ledger :=
  { l with deposits := ⟨l.directory, fp, u⟩ :: l.deposits }

/-- Turns to a directory or to none. What was stored without a directory is gone. -/
def turn (l : Ledger) (directory : Option String) : Ledger :=
  ⟨directory, l.deposits.filter (·.directory.isSome)⟩

variable {ε : Type} (ofCacheError : CacheError → ε)

/-- One step of a plain store. -/
def step (l : Ledger) : Cache.Op ε → Ledger × Cache.Reply ε
  | .save fp u => (l.store fp u, .done)
  | .get fp validate =>
    let (answer, stored) := Cache.verdict ofCacheError validate (l.found? fp)
    (match stored with
      | none => l
      | some u => l.store fp u,
      .got (l.found? fp) answer)
  | .clear => (l.turn l.directory, .done)
  | .bind directory =>
    if l.directory.map Path.components = some (Path.components directory) then (l, .bound false)
    else (l.turn (some directory), .bound true)
  | .renew directory => (l.turn directory, .done)
  | .change _ => (l, .done)

/-- The plain store after a list of steps, and what each of them answered. -/
def run (l : Ledger) : List (Cache.Op ε) → Ledger × List (Cache.Reply ε)
  | [] => (l, [])
  | op :: rest =>
    let (l₁, reply) := l.step ofCacheError op
    let (l₂, replies) := l₁.run rest
    (l₂, reply :: replies)

variable {l : Ledger} {directory : Option String} {fp fp' : Fingerprint} {u : Artifact}

theorem latest?_store (l : Ledger) (directory : Option String) (fp fp' : Fingerprint)
    (u : Artifact) :
    (l.store fp u).latest? directory fp' =
      if l.directory.map Path.names = directory.map Path.names ∧ fp = fp' then some u
      else l.latest? directory fp' := by
  unfold latest? store Deposit.isUnder
  rw [List.find?_cons]
  split
  · next h => rw [if_pos (by simpa using h)]; rfl
  · next h => rw [if_neg (by simpa using h)]

theorem found?_store (l : Ledger) (fp fp' : Fingerprint) (u : Artifact) :
    (l.store fp u).found? fp' = if fp = fp' then some u else l.found? fp' := by
  rw [found?, latest?_store]
  by_cases h : fp = fp'
  · rw [if_pos ⟨rfl, h⟩, if_pos h]
  · rw [if_neg fun hc => h hc.2, if_neg h]
    rfl

theorem latest?_turn (l : Ledger) (directory : Option String) (dir : String) (fp : Fingerprint) :
    (l.turn directory).latest? (some dir) fp = l.latest? (some dir) fp := by
  unfold latest? turn
  rw [List.find?_filter]
  congr 2
  funext x
  cases hx : x.directory <;> simp [Deposit.isUnder, hx]

theorem latest?_turn_none (l : Ledger) (directory : Option String) (fp : Fingerprint) :
    (l.turn directory).latest? none fp = none := by
  unfold latest? turn
  rw [List.find?_filter, Option.map_eq_none_iff, List.find?_eq_none]
  intro x _
  cases hx : x.directory <;> simp [Deposit.isUnder, hx]

theorem latest?_congr {dir dir' : String} (h : Path.names dir = Path.names dir')
    (l : Ledger) (fp : Fingerprint) : l.latest? (some dir) fp = l.latest? (some dir') fp := by
  unfold latest? Deposit.isUnder
  rw [Option.map_some, Option.map_some, h]

end Ledger

namespace Cache

variable {ε : Type} {f : CacheError → ε} {D : String → Prop} {F : Fingerprint → Prop}
  {s : Site} {l : Ledger} {fp fp' : Fingerprint} {u : Artifact} {dir dir' : String}

/-! ## Undisturbed runs -/

/-- Fingerprints are told apart by their keys, which are plain names; and the paths of their entry
files are not too long. -/
structure Keyed (D : String → Prop) (F : Fingerprint → Prop) : Prop where
  distinct : Distinct F
  plain : ∀ {fp}, F fp → '/' ∉ fp.key.toList
  short : ∀ {dir fp}, D dir → F fp → (entryPath dir fp.key).utf8ByteSize < Disk.maxPath

/-- Directories that differ in a name have entry files of their own. -/
def Separate (D : String → Prop) (F : Fingerprint → Prop) (d : Disk) : Prop :=
  ∀ dir fp dir' fp', D dir → F fp → D dir' → F fp' →
    d.Apart (entryPath dir fp.key) (entryPath dir' fp'.key)

/-- A step of the cache that uses these directories and fingerprints, and not one of somebody who
touches the files. -/
def Op.Within (D : String → Prop) (F : Fingerprint → Prop) : Op ε → Prop
  | .save fp _ | .get fp _ => F fp
  | .clear => True
  | .bind directory => D directory
  | .renew directory => ∀ dir ∈ directory, D dir
  | .change _ => False

instance [DecidablePred D] [DecidablePred F] : DecidablePred (Op.Within (ε := ε) D F)
  | .save fp _ | .get fp _ => inferInstanceAs (Decidable (F fp))
  | .clear => inferInstanceAs (Decidable True)
  | .bind directory => inferInstanceAs (Decidable (D directory))
  | .renew directory => inferInstanceAs (Decidable (∀ dir ∈ directory, D dir))
  | .change _ => inferInstanceAs (Decidable False)

namespace Site

/-- Whether the file that a step writes, if there is one, can be written. -/
def writes (f : CacheError → ε) (s : Site) (op : Op ε) : Bool :=
  match s.stores? f op, s.cache.directory with
  | some (fp, u), some dir =>
    (s.disk.writeUnder (entryPath dir fp.key) (.entry ⟨fp, u⟩)).2.isOk
  | _, _ => true

/-- Whether all files of a run are written. -/
def writesAll (f : CacheError → ε) (s : Site) : List (Op ε) → Bool
  | [] => true
  | op :: rest => s.writes f op && (s.step f op).1.writesAll f rest

/-- Directories that differ in a name have entry files of their own at all times of a run. -/
def SeparateAll (f : CacheError → ε) (D : String → Prop) (F : Fingerprint → Prop) (s : Site) :
    List (Op ε) → Prop
  | [] => Separate D F s.disk
  | op :: rest => Separate D F s.disk ∧ (s.step f op).1.SeparateAll f D F rest

theorem SeparateAll.separate {ops : List (Op ε)} (h : s.SeparateAll f D F ops) :
    Separate D F s.disk := by
  cases ops with
  | nil => exact h
  | cons op rest => exact h.1

theorem eq_ok_of_isOk {r : Except Disk.Fault Unit} (h : r.isOk = true) : r = .ok () := by
  cases r with
  | error err => cases h
  | ok _ => rfl

theorem writes_of_stores? {op : Op ε} (h : s.writes f op = true)
    (hst : s.stores? f op = some (fp, u)) : ∀ dir ∈ s.cache.directory,
      (s.disk.writeUnder (entryPath dir fp.key) (.entry ⟨fp, u⟩)).2 = .ok () := by
  intro dir hdir
  unfold writes at h
  simp only [hst, Option.mem_def.1 hdir] at h
  exact eq_ok_of_isOk h

/-! ## Disks without links -/

theorem linkless_save (h : s.disk.Linkless) (fp : Fingerprint) (u : Artifact) :
    (s.save fp u).disk.Linkless := by
  unfold Site.save Cache.save writeEntry
  dsimp only
  split
  · exact h
  · exact h.writeUnder _ _

theorem linkless_step (h : s.disk.Linkless) {op : Op ε} (hop : op.Within D F) :
    (s.step f op).1.disk.Linkless := by
  cases op with
  | save fp u => exact linkless_save h fp u
  | get fp validate =>
    rw [step_get]
    cases (verdict f validate (s.handed fp)).2 with
    | none => exact h
    | some u => exact linkless_save (s := s.fetch fp) h fp u
  | clear | renew | bind => exact h
  | change disk => exact hop.elim

/-- **On a disk without links, directories without two points stay apart.** -/
theorem separateAll_of_linkless
    (hp : ∀ dir fp, D dir → F fp → ".." ∉ Path.pieces (entryPath dir fp.key)) {ops : List (Op ε)}
    (h : s.disk.Linkless) (hw : ∀ op ∈ ops, op.Within D F) : s.SeparateAll f D F ops := by
  have hsep : ∀ d : Disk, d.Linkless → Separate D F d := fun d hd dir fp dir' fp' h₁ h₂ h₃ h₄ =>
    Disk.apart_of_linkless hd (hp dir fp h₁ h₂) (hp dir' fp' h₃ h₄)
  induction ops generalizing s with
  | nil => exact hsep _ h
  | cons op rest ih =>
    exact ⟨hsep _ h, ih (linkless_step h (hw op List.mem_cons_self))
      fun op' hop' => hw op' (List.mem_cons_of_mem _ hop')⟩

end Site

/-! ## Memory and files -/

theorem names_entryPath_congr (h : Path.names dir = Path.names dir') {key : String}
    (hk : '/' ∉ key.toList) :
    Path.names (entryPath dir key) = Path.names (entryPath dir' key) := by
  rw [names_entryPath dir hk, names_entryPath dir' hk, h]

theorem names_entryPath_inj {key key' : String} (hk : '/' ∉ key.toList) (hk' : '/' ∉ key'.toList)
    (h : Path.names (entryPath dir key) = Path.names (entryPath dir' key')) :
    Path.names dir = Path.names dir' ∧ key = key' := by
  rw [names_entryPath dir hk, names_entryPath dir' hk'] at h
  obtain ⟨hd, ht⟩ := List.append_inj' h rfl
  exact ⟨hd, (String.append_left_inj ".rkyv").1 (List.cons.inj (List.cons.inj ht).2).1⟩

theorem endsInName_entryPath (dir : String) {key : String} (hk : '/' ∉ key.toList) :
    Disk.EndsInName (Path.pieces (entryPath dir key)) := by
  have hname := slash_not_mem_entryName hk
  obtain ⟨ps, hps, -⟩ := Path.exists_pieces_join (Path.join dir "entries")
    (Path.isAbsolute_of_plain hname)
  intro n hn
  rw [entryPath, hps, Path.pieces_of_plain hname, List.getLast?_concat] at hn
  cases hn
  exact isIdle_entryName key

/-- Memory and files hold what a ledger says. -/
structure Tracks (D : String → Prop) (F : Fingerprint → Prop) (s : Site) (l : Ledger) : Prop where
  directory : l.directory = s.cache.directory
  bound : ∀ dir ∈ s.cache.directory, D dir
  /-- What is in memory was stored last. -/
  memory : ∀ key e, s.cache.memory.get? key = some e →
    e.fingerprint.key = key ∧ F e.fingerprint ∧ l.found? e.fingerprint = some e.unit
  /-- Without a directory, what was stored last is in memory. -/
  loose : s.cache.directory = none → ∀ fp u, F fp → l.found? fp = some u →
    s.cache.memory.get? fp.key = some ⟨fp, u⟩
  /-- What was stored last under a directory is in its file. -/
  filed : ∀ dir fp u, D dir → F fp → l.latest? (some dir) fp = some u →
    ∃ ns, s.disk.Arrives (entryPath dir fp.key) ns (.entry ⟨fp, u⟩)
  /-- An entry on the disk was stored last under a directory, and is in its file. -/
  origin : ∀ ns e, F e.fingerprint → s.disk.leaf? ns = some (.file (.entry e)) →
    ∃ dir, D dir ∧ s.disk.Arrives (entryPath dir e.fingerprint.key) ns (.entry e) ∧
      l.latest? (some dir) e.fingerprint = some e.unit

theorem Tracks.latest?_of_arrives (ht : Tracks D F s l) (hk : Keyed D F)
    (hs : Separate D F s.disk) (hd : D dir) {e : Entry} (hf : F e.fingerprint) {ns : List String}
    (ha : s.disk.Arrives (entryPath dir e.fingerprint.key) ns (.entry e)) :
    l.latest? (some dir) e.fingerprint = some e.unit := by
  obtain ⟨dir', hd', ha', hl⟩ := ht.origin ns e hf (Disk.leaf?_of_get? ha.get?_eq rfl)
  have hn := hs dir _ dir' _ hd hf hd' hf ns _ _ ha ha'
  rw [Ledger.latest?_congr (names_entryPath_inj (hk.plain hf) (hk.plain hf) hn).1, hl]

theorem Tracks.found?_of_load? (ht : Tracks D F s l) (hk : Keyed D F) (hs : Separate D F s.disk)
    (hf : F fp) {e : Entry} (he : s.cache.load? s.disk fp = some e) :
    e.fingerprint = fp ∧ l.found? fp = some e.unit := by
  obtain ⟨rfl, dir, hdir, hr⟩ := load?_eq_some_iff.1 he
  obtain ⟨ns, ha⟩ := Disk.exists_arrives hr
  refine ⟨rfl, ?_⟩
  rw [Ledger.found?, ht.directory, hdir]
  exact ht.latest?_of_arrives hk hs (ht.bound dir hdir) hf ha

/-- **A lookup finds what was stored last** under the bound directory. -/
theorem Tracks.handed_eq (ht : Tracks D F s l) (hk : Keyed D F) (hs : Separate D F s.disk)
    (hf : F fp) : s.handed fp = l.found? fp := by
  rw [Site.handed, lookup?_eq, held?]
  cases hm : s.cache.memory.get? fp.key with
  | some e =>
    obtain ⟨hkey, he, hl⟩ := ht.memory _ e hm
    obtain rfl := hk.distinct hf he hkey
    exact hl.symm
  | none =>
    cases hl : s.cache.load? s.disk fp with
    | some e => exact (ht.found?_of_load? hk hs hf hl).2.symm
    | none =>
      cases hu : l.found? fp with
      | none => rfl
      | some u =>
        cases hdir : s.cache.directory with
        | none =>
          rw [ht.loose hdir fp u hf hu] at hm
          cases hm
        | some dir =>
          rw [Ledger.found?, ht.directory, hdir] at hu
          obtain ⟨ns, ha⟩ := ht.filed dir fp u (ht.bound dir hdir) hf hu
          have he : s.cache.load? s.disk fp = some ⟨fp, u⟩ :=
            load?_eq_some_iff.2 ⟨rfl, dir, hdir, ha.read_eq⟩
          rw [hl] at he
          cases he

/-! ## Steps -/

theorem Tracks.fetch (ht : Tracks D F s l) (hk : Keyed D F) (hs : Separate D F s.disk) (hf : F fp) :
    Tracks D F (s.fetch fp) l := by
  unfold Site.fetch Cache.fetch
  split
  · exact ht
  · split
    · exact ht
    · next e he =>
      refine { ht with memory := fun key e' hm => ?_, loose := fun hdir fp' u hf' hl => ?_ }
      · rw [KeyMap.get?_insert] at hm
        split at hm
        · next hkey =>
          cases hm
          obtain ⟨rfl, hl⟩ := ht.found?_of_load? hk hs hf he
          exact ⟨hkey.symm, hf, hl⟩
        · exact ht.memory key e' hm
      · obtain ⟨-, dir, hd, -⟩ := load?_eq_some_iff.1 he
        rw [Option.mem_def, show s.cache.directory = none from hdir] at hd
        cases hd

theorem Tracks.turn (ht : Tracks D F s l) {directory : Option String}
    (hd : ∀ dir ∈ directory, D dir) :
    Tracks D F { s with cache := ⟨directory, .empty⟩ } (l.turn directory) where
  directory := rfl
  bound := hd
  memory key e hm := by cases hm
  loose hdir fp u _ hl := by
    obtain rfl : directory = none := hdir
    rw [Ledger.found?, show (l.turn none).directory = none from rfl, Ledger.latest?_turn_none] at hl
    cases hl
  filed dir fp u hd hf hl := ht.filed dir fp u hd hf (by rw [← hl, Ledger.latest?_turn])
  origin ns e hf hleaf := by
    obtain ⟨dir, hd, ha, hl⟩ := ht.origin ns e hf hleaf
    exact ⟨dir, hd, ha, by rw [Ledger.latest?_turn, hl]⟩

theorem Tracks.memory_save (ht : Tracks D F s l) (hf : F fp) {key : String} {e : Entry}
    (hm : (s.cache.memory.insert fp.key ⟨fp, u⟩).get? key = some e) :
    e.fingerprint.key = key ∧ F e.fingerprint ∧
      (l.store fp u).found? e.fingerprint = some e.unit := by
  rw [KeyMap.get?_insert] at hm
  rw [Ledger.found?_store]
  split at hm
  · next hkey =>
    cases hm
    exact ⟨hkey.symm, hf, if_pos rfl⟩
  · next hkey =>
    obtain ⟨he, hf', hl⟩ := ht.memory key e hm
    refine ⟨he, hf', ?_⟩
    rw [if_neg (fun h => hkey (by rw [h, he])), hl]

theorem Tracks.save_loose (ht : Tracks D F s l) (hk : Keyed D F) (hf : F fp)
    (hd : s.cache.directory = none) : Tracks D F (s.save fp u) (l.store fp u) := by
  have hdisk : (s.save fp u).disk = s.disk := by
    simp only [Site.save, Cache.save, writeEntry, entryPath?, hd, Option.map_none]
  have hlatest : ∀ dir fp', (l.store fp u).latest? (some dir) fp' = l.latest? (some dir) fp' := by
    intro dir fp'
    rw [Ledger.latest?_store, ht.directory, hd]
    exact if_neg (fun h => by cases h.1)
  constructor
  case directory => exact ht.directory
  case bound => exact ht.bound
  case memory => exact fun key e hm => ht.memory_save hf hm
  case loose =>
    intro _ fp' u' hf' hl
    rw [Ledger.found?_store] at hl
    show (s.cache.memory.insert fp.key ⟨fp, u⟩).get? fp'.key = _
    split at hl
    · next he =>
      cases hl
      rw [he, KeyMap.get?_insert_self]
    · next hne =>
      rw [KeyMap.get?_insert_of_ne _ _ fun h => hne (hk.distinct hf hf' h).symm]
      exact ht.loose hd fp' u' hf' hl
  case filed =>
    intro dir fp' u' hd' hf' hl
    rw [hdisk]
    exact ht.filed dir fp' u' hd' hf' (by rw [← hlatest, hl])
  case origin =>
    intro ns e hf' hleaf
    rw [hdisk] at hleaf ⊢
    obtain ⟨dir, hd', ha, hl⟩ := ht.origin ns e hf' hleaf
    exact ⟨dir, hd', ha, by rw [hlatest, hl]⟩

theorem Tracks.save_filed (ht : Tracks D F s l) (hk : Keyed D F) (hf : F fp)
    (hd : s.cache.directory = some dir)
    (hw : (s.disk.writeUnder (entryPath dir fp.key) (.entry ⟨fp, u⟩)).2 = .ok ())
    (hs : Separate D F (s.save fp u).disk) : Tracks D F (s.save fp u) (l.store fp u) := by
  have hdisk : (s.save fp u).disk =
      (s.disk.writeUnder (entryPath dir fp.key) (.entry ⟨fp, u⟩)).1 := by
    simp only [Site.save, Cache.save, writeEntry, entryPath?, hd, Option.map_some]
  have hg := Disk.grows_writeUnder s.disk (entryPath dir fp.key) (.entry ⟨fp, u⟩)
  obtain ⟨ns₀, ha₀, hother⟩ := Disk.arrives_writeUnder hw
  rw [← hdisk] at hg ha₀ hother
  have hdir : D dir := ht.bound dir hd
  -- the new file is the file of this directory, however that is spelled
  have hspelled : ∀ dir', D dir' → Path.names dir = Path.names dir' →
      (s.save fp u).disk.Arrives (entryPath dir' fp.key) ns₀ (.entry ⟨fp, u⟩) :=
    fun dir' hd' hn => ha₀.respell (names_entryPath_congr hn.symm (hk.plain hf))
      (endsInName_entryPath dir' (hk.plain hf)) (hk.short hd' hf)
  -- files of other names are where they were
  have hkept : ∀ path ns b, ns ≠ ns₀ → s.disk.Arrives path ns b →
      (s.save fp u).disk.Arrives path ns b := by
    intro path ns b hne ha
    refine ha.grow hg (Disk.get?_of_leaf? ?_)
    rw [hother ns hne, Disk.leaf?_of_get? ha.get?_eq rfl]
  constructor
  case directory => exact ht.directory
  case bound => exact ht.bound
  case memory => exact fun key e hm => ht.memory_save hf hm
  case loose => exact fun hnone => absurd (hd.symm.trans hnone) (Option.some_ne_none dir)
  case filed =>
    intro dir' fp' u' hd' hf' hl
    rw [Ledger.latest?_store, ht.directory, hd] at hl
    split at hl
    · next h =>
      obtain ⟨hn, rfl⟩ := h
      cases hl
      exact ⟨ns₀, hspelled dir' hd' (Option.some.inj hn)⟩
    · next hne =>
      obtain ⟨ns, ha⟩ := ht.filed dir' fp' u' hd' hf' hl
      refine ⟨ns, hkept _ _ _ ?_ ha⟩
      -- if it were the new file, then directories and keys would be the same
      rintro rfl
      have ha' := ha.grow hg ha₀.get?_eq
      obtain ⟨hn, hkey⟩ := names_entryPath_inj (hk.plain hf) (hk.plain hf')
        (hs _ _ _ _ hdir hf hd' hf' _ _ _ ha₀ ha')
      exact hne ⟨congrArg some hn, hk.distinct hf' hf hkey⟩
  case origin =>
    intro ns e hf' hleaf
    by_cases hns : ns = ns₀
    · subst hns
      have he := (Disk.leaf?_of_get? ha₀.get?_eq rfl).symm.trans hleaf
      cases he
      exact ⟨dir, hdir, ha₀, by rw [Ledger.latest?_store, ht.directory, hd, if_pos ⟨rfl, rfl⟩]⟩
    · rw [hother ns hns] at hleaf
      obtain ⟨dir', hd', ha, hl⟩ := ht.origin ns e hf' hleaf
      have ha' := hkept _ _ _ hns ha
      refine ⟨dir', hd', ha', ?_⟩
      rw [Ledger.latest?_store, ht.directory, hd, if_neg, hl]
      rintro ⟨hn, rfl⟩
      have hsame := ha'.symm.trans (hspelled dir' hd' (Option.some.inj hn))
      exact hns (Disk.Place.mk.inj (Except.ok.inj hsame)).1

theorem Tracks.save (ht : Tracks D F s l) (hk : Keyed D F) (hf : F fp)
    (hw : ∀ dir ∈ s.cache.directory,
      (s.disk.writeUnder (entryPath dir fp.key) (.entry ⟨fp, u⟩)).2 = .ok ())
    (hs : Separate D F (s.save fp u).disk) : Tracks D F (s.save fp u) (l.store fp u) := by
  cases hd : s.cache.directory with
  | none => exact ht.save_loose hk hf hd
  | some dir => exact ht.save_filed hk hf hd (hw dir hd) hs

/-- **Every step keeps what the ledger says, and answers like it.** -/
theorem Tracks.step (ht : Tracks D F s l) (hk : Keyed D F) {op : Op ε} (hs : Separate D F s.disk)
    (hop : op.Within D F) (hw : s.writes f op = true) (hs' : Separate D F (s.step f op).1.disk) :
    Tracks D F (s.step f op).1 (l.step f op).1 ∧ (s.step f op).2 = (l.step f op).2 := by
  cases op with
  | save fp u => exact ⟨ht.save hk hop (Site.writes_of_stores? hw rfl) hs', rfl⟩
  | get fp validate =>
    have hfetch := ht.fetch hk hs hop
    rw [Site.step_get] at hs' ⊢
    dsimp only [Ledger.step]
    rw [← ht.handed_eq hk hs hop]
    refine ⟨?_, rfl⟩
    cases hv : (verdict f validate (s.handed fp)).2 with
    | none => exact hfetch
    | some u =>
      rw [hv] at hs'
      have hst : s.stores? f (.get fp validate) = some (fp, u) := by
        simp only [Site.stores?, hv, Option.map_some]
      refine hfetch.save hk hop (fun dir hdir => Site.writes_of_stores? hw hst dir ?_) hs'
      rwa [← directory_fetch s.cache s.disk fp]
  | clear =>
    refine ⟨?_, rfl⟩
    dsimp only [Ledger.step]
    rw [ht.directory]
    exact ht.turn ht.bound
  | bind directory =>
    dsimp only [Site.step, Ledger.step, Cache.bind]
    rw [ht.directory]
    by_cases hbound : s.cache.directory.map Path.components = some (Path.components directory)
    · rw [if_pos (any_same_iff.2 hbound), if_pos hbound]
      exact ⟨ht, rfl⟩
    · rw [if_neg (mt any_same_iff.1 hbound), if_neg hbound]
      exact ⟨ht.turn fun dir hdir => by cases hdir; exact hop, rfl⟩
  | renew directory => exact ⟨ht.turn hop, rfl⟩
  | change disk => exact hop.elim

theorem Tracks.run (ht : Tracks D F s l) (hk : Keyed D F) {ops : List (Op ε)}
    (hop : ∀ op ∈ ops, op.Within D F) (hw : s.writesAll f ops = true)
    (hs : s.SeparateAll f D F ops) : (s.run f ops).2 = (l.run f ops).2 := by
  -- site and ledger move together, and the one tracks the other all the time
  induction ops generalizing s l with
  | nil => rfl
  | cons op rest ih =>
    obtain ⟨hw₁, hw⟩ := Bool.and_eq_true_iff.1 hw
    obtain ⟨hstep, hreply⟩ := ht.step hk hs.1 (hop op List.mem_cons_self) hw₁ hs.2.separate
    have hrest := ih hstep (fun op' hop' => hop op' (List.mem_cons_of_mem _ hop')) hw hs.2
    exact congr (congrArg List.cons hreply) hrest

theorem tracks_new {directory : Option String} {d : Disk} (hd : ∀ dir ∈ directory, D dir)
    (he : ∀ e, F e.fingerprint → ¬d.HasEntry e) :
    Tracks D F ⟨⟨directory, .empty⟩, d⟩ ⟨directory, []⟩ where
  directory := rfl
  bound := hd
  memory key e hm := by cases hm
  loose _ fp u _ hl := by cases hl
  filed dir fp u _ _ hl := by cases hl
  origin ns e hf hleaf := absurd ⟨ns, hleaf⟩ (he e hf)

/-- **A cache answers like a plain store.** What a lookup hands to its validation is what was
stored last under the fingerprint while this directory was bound; it answers and stores what the
verdict on this says. -/
theorem replies_run_eq {directory : Option String} {d : Disk} {ops : List (Op ε)}
    (hk : Keyed D F) (hd : ∀ dir ∈ directory, D dir) (he : ∀ e, F e.fingerprint → ¬d.HasEntry e)
    (hop : ∀ op ∈ ops, op.Within D F)
    (hw : Site.writesAll f ⟨⟨directory, .empty⟩, d⟩ ops = true)
    (hs : Site.SeparateAll f D F ⟨⟨directory, .empty⟩, d⟩ ops) :
    (Site.run f ⟨⟨directory, .empty⟩, d⟩ ops).2 = (Ledger.run f ⟨directory, []⟩ ops).2 :=
  (tracks_new hd he).run hk hop hw hs

/-! ## A run between two directories -/

/-- Artifacts are stored without a directory, in `a`, and in `b`. The one in `a` is patched after a
return to it, and a new cache finds it there under another spelling. -/
def shuttle : List (Op CacheError) :=
  [.save (printOf "x") (artifactAt "o.ts"), .bind "a", .get (printOf "x") fun _ => .ok .reuse,
    .get (printOf "x") fun _ => .ok (.replace (artifactAt "x.ts")), .bind "b",
    .save (printOf "x") (artifactAt "y.ts"), .get (printOf "y") fun _ => .error (.io ""),
    .bind "a/", .get (printOf "x") fun _ => .ok (.patch .empty ⟨.empty, .empty, some .empty⟩),
    .clear, .renew (some "./a"), .get (printOf "x") fun _ => .ok .reuse]

/-- The cache answers like a plain store on the way between the directories. -/
theorem replies_shuttle : Site.writesAll id ⟨⟨none, .empty⟩, .empty⟩ shuttle = true ∧
    (Site.run id ⟨⟨none, .empty⟩, .empty⟩ shuttle).2 = (Ledger.run id ⟨none, []⟩ shuttle).2 := by
  let dirs := ["a", "b", "a/", "./a"]
  have hplain : ∀ fp ∈ fewPrints, '/' ∉ fp.key.toList := by decide
  have hshort : ∀ dir ∈ dirs, ∀ fp ∈ fewPrints,
      (entryPath dir fp.key).utf8ByteSize < Disk.maxPath := by decide
  have hpoints : ∀ dir ∈ dirs, ∀ fp ∈ fewPrints,
      ".." ∉ Path.pieces (entryPath dir fp.key) := by decide
  have hwithin : ∀ op ∈ shuttle, op.Within (· ∈ dirs) (· ∈ fewPrints) := by decide
  have hwrites : Site.writesAll id ⟨⟨none, .empty⟩, .empty⟩ shuttle = true := by decide +kernel
  have hkeyed : Keyed (· ∈ dirs) (· ∈ fewPrints) :=
    ⟨distinct_fewPrints, fun {fp} hf => hplain fp hf, fun {dir fp} hd hf => hshort dir hd fp hf⟩
  exact ⟨hwrites, replies_run_eq hkeyed nofun (fun e _ => Disk.not_hasEntry_empty e) hwithin hwrites
    (Site.separateAll_of_linkless (fun dir fp hd hf => hpoints dir hd fp hf) Disk.linkless_empty
      hwithin)⟩

end Cache

end CompileCache
