import CompileCache.Mini.Engine
import CompileCache.Proofs.Options.Decoding
import CompileCache.Proofs.Session.Traffic
import CompileCache.Proofs.Text.ByteOrder
import CompileCache.Session.Search
import Mathlib.Data.List.TakeDrop

/-!
# Registrations — working sets hold what they should

* `search_iff`: in ascending order a search finds exactly what is there.
* `Options.Excludes`: some pattern matches a path; `matchesAny_iff`, `mem_workingFiles`.
* `Session.Registered`: what a registration gives and leaves.
* **`Session.register_exact`**: options that are refused change nothing; with all others the working
  set has the paths that are not excluded, in the order of their bytes, and is searched rightly.
* `Session.register_exact_mixed`: paths twice, in disorder and in several scripts.
-/

namespace CompileCache

/-! ## Searching -/

theorem mem_take_or_drop_iff {files : List String} (h : files.Pairwise (· < ·)) {half : Nat}
    {file path : String} (hfile : files[half]? = some file) :
    (path < file → (path ∈ files ↔ path ∈ files.take half)) ∧
      (¬path < file → (path ∈ files ↔ path ∈ files.drop half)) := by
  obtain ⟨hlt, rfl⟩ := List.getElem?_eq_some_iff.1 hfile
  have hmem : path ∈ files ↔ path ∈ files.take half ∨ path ∈ files.drop half := by
    rw [← List.mem_append, List.take_append_drop]
  have hsplit := h
  rw [← List.take_append_drop half files, List.pairwise_append] at hsplit
  obtain ⟨-, hdrop, hcross⟩ := hsplit
  rw [List.drop_eq_getElem_cons hlt] at hdrop hcross hmem ⊢
  constructor
  · intro hp
    rw [hmem, or_iff_left]
    intro hd
    rcases List.mem_cons.1 hd with rfl | hd
    · exact String.lt_irrefl _ hp
    · exact String.lt_asymm hp ((List.pairwise_cons.1 hdrop).1 _ hd)
  · intro hp
    rw [hmem, or_iff_right]
    exact fun ht => hp (hcross _ ht _ List.mem_cons_self)

/-- **In ascending order a search finds exactly what is there.** -/
theorem search_iff {path : String} {files : List String} (h : files.Pairwise (· < ·)) :
    search path files = true ↔ path ∈ files := by
  fun_induction search path files with
  | case1 files hle =>
    match files, hle with
    | [], _ => simp
    | [file], _ => simp [eq_comm]
  | case2 files hle half hany ih =>
    rw [ih (h.sublist (List.take_sublist _ _))]
    refine ⟨List.mem_of_mem_take, fun hp => ?_⟩
    obtain ⟨file, hfile, hlt⟩ := (Option.any_eq_true _ _).1 hany
    have hhalf : half ≤ files.length - half := by
      have : half = files.length / 2 := rfl
      omega
    exact List.take_subset_take_left _ hhalf
      (((mem_take_or_drop_iff h hfile).1 (of_decide_eq_true hlt)).1 hp)
  | case3 files hle half hany ih =>
    rw [ih (h.sublist (List.drop_sublist _ _))]
    have hhalf : half < files.length := by
      have : half = files.length / 2 := rfl
      omega
    have hfile := List.getElem?_eq_getElem hhalf
    rw [hfile] at hany
    exact (((mem_take_or_drop_iff h hfile).2 fun hlt => hany (decide_eq_true hlt))).symm

/-! ## Working sets -/

/-- Some pattern of the settings matches a path. -/
def Options.Excludes (o : Options) (path : String) : Prop :=
  ∃ pattern ∈ o.exclude, ∃ glob, Glob.parse pattern = .ok glob ∧ Glob.isMatch glob path = true

theorem Options.forall₂_of_excludeGlobs {o : Options} {globs : Option (List (List Glob.Token))}
    (h : o.excludeGlobs = .ok globs) :
    List.Forall₂ (fun p glob => Glob.parse p = .ok glob) o.exclude (globs.getD []) := by
  unfold excludeGlobs at h
  split at h
  · next hempty =>
    cases h
    rw [List.isEmpty_iff.1 hempty]
    exact .nil
  · cases hl : readGlobs o.exclude with
    | error e => rw [hl] at h; cases h
    | ok l =>
      rw [hl] at h
      dsimp only at h
      cases hc : Glob.check l with
      | error f => rw [hc] at h; cases h
      | ok _ => rw [hc] at h; cases h; exact readGlobs_eq_ok_iff.1 hl

/-- **What is excluded is what some pattern matches.** -/
theorem Options.matchesAny_iff {o : Options} {globs : Option (List (List Glob.Token))}
    (h : o.excludeGlobs = .ok globs) {path : String} :
    matchesAny globs path = true ↔ o.Excludes path := by
  have hall := forall₂_of_excludeGlobs h
  unfold matchesAny Excludes
  generalize o.exclude = patterns at hall ⊢
  generalize globs.getD [] = l at hall ⊢
  induction hall with
  | nil => simp
  | cons hparse _ ih => simp [ih, hparse]

theorem mem_workingFiles {globs : Option (List (List Glob.Token))} {paths : List String}
    {path : String} :
    path ∈ workingFiles globs paths ↔ path ∈ paths ∧ ¬Options.matchesAny globs path = true := by
  unfold workingFiles
  rw [KeySet.mem_toList, KeySet.mem_ofList, List.mem_filter, Bool.not_eq_true', Bool.not_eq_true]

theorem pairwise_workingFiles (globs : Option (List (List Glob.Token))) (paths : List String) :
    (workingFiles globs paths).Pairwise (· < ·) := KeyMap.pairwise_keys _

/-! ## Registering -/

namespace Session

variable {σ : Type} {e : Engine σ} {s s' : Session σ} {disk : Disk} {paths : List String}
  {origin : Origin} {options : Options} {b : Build} {calls : List Call}

/-- What a registration gives and leaves. -/
structure Registered (e : Engine σ) (s' : Session σ) (paths : List String) (origin : Origin)
    (o : Options) (b : Build) (calls : List Call) : Prop where
  origin : b.set.origin = origin
  options : b.set.options = o
  /-- The paths ascend strictly in the order of their bytes. -/
  ascending : b.set.files.Pairwise fun p q => p.toUTF8.toList < q.toUTF8.toList
  mem_files_iff : ∀ path, path ∈ b.set.files ↔ path ∈ paths ∧ ¬o.Excludes path
  /-- A compiler is made if there is none; then the working set is loaded, and nothing else. -/
  loads : ∃ creates arch, calls = creates ++ [.load arch b.set] ∧ ∀ c ∈ creates, c = .create o.arch
  /-- The compiler of the build is loaded with the working set, under the number of the build. -/
  loaded : ∃ slot old, s'.slots[b.slot]? = some slot ∧ slot.engine = e.load old b.set ∧
    slot.active = b.registration
  finds_iff : ∀ path, b.finds path = true ↔ path ∈ paths ∧ ¬o.Excludes path
  contains_eq : ∀ path, b.contains path = b.finds path

theorem loads_registerFiles (e : Engine σ) (s : Session σ) (disk : Disk) (set : WorkingSet) :
    (∃ creates arch, (s.registerFiles e disk set).2.2 = creates ++ [.load arch set] ∧
      ∀ c ∈ creates, c = .create set.options.arch) ∧
    ∃ slot old, (s.registerFiles e disk set).2.1.slots[(s.registerFiles e disk set).1.slot]? =
      some slot ∧ slot.engine = e.load old set ∧
      slot.active = (s.registerFiles e disk set).1.registration := by
  obtain ⟨i, slot, s₁, creates, hfor, hslot, -, hmade⟩ := s.slotFor_cases e disk set.options.arch
  unfold registerFiles
  rw [hfor]
  refine ⟨⟨creates, _, rfl, ?_⟩,
    _, _, List.getElem?_set_self (List.getElem?_eq_some_iff.1 hslot).1, rfl, rfl⟩
  rcases hmade with ⟨rfl, -⟩ | ⟨rfl, -⟩
  · exact List.forall_mem_nil _
  · exact fun c hc => List.mem_singleton.1 hc

theorem registered_registerFiles {globs : Option (List (List Glob.Token))}
    (h : options.excludeGlobs = .ok globs) (e : Engine σ) (s : Session σ) (disk : Disk)
    (paths : List String) (origin : Origin) :
    let r := s.registerFiles e disk ⟨workingFiles globs paths, origin, options⟩
    Registered e r.2.1 paths origin options r.1 r.2.2 := by
  have hmem : ∀ path, path ∈ workingFiles globs paths ↔ path ∈ paths ∧ ¬options.Excludes path :=
    fun path => by rw [mem_workingFiles, Options.matchesAny_iff h]
  have hascending := pairwise_workingFiles globs paths
  have hset : (s.registerFiles e disk ⟨workingFiles globs paths, origin, options⟩).1.set =
    ⟨workingFiles globs paths, origin, options⟩ := rfl
  obtain ⟨hloads, hloaded⟩ :=
    loads_registerFiles e s disk ⟨workingFiles globs paths, origin, options⟩
  refine ⟨rfl, rfl, hascending.imp fun hlt => Text.lt_iff_bytes_lt.1 hlt, hmem, hloads, hloaded,
    fun path => (search_iff hascending).trans (hmem path), fun path => ?_⟩
  unfold Build.contains Build.finds
  rw [hset, Bool.eq_iff_iff, List.contains_iff_mem, search_iff hascending]

/-- **A registration takes exactly the paths that are not excluded.** Options that are refused
change nothing. All others give a build whose paths ascend in the order of their bytes and are those
of the given paths that no pattern matches; a search finds these and no others, and the compiler is
loaded with them. -/
theorem register_exact (e : Engine σ) (s : Session σ) (disk : Disk) (paths : List String)
    (origin : Origin) (options : Options) :
    (∀ err, options.validate = .error err →
      s.register e disk paths origin options = (.error (.config err), s, [])) ∧
    (options.validate = .ok () → ∃ b s' calls,
      s.register e disk paths origin options = (.ok b, s', calls) ∧
      Registered e s' paths origin options b calls) := by
  unfold register
  refine ⟨fun err h => by rw [h], fun h => ?_⟩
  have hpatterns := Options.excludeGlobs_eq_ok_iff.2 (Options.validate_eq_ok_iff.1 h).2.2
  cases hglobs : options.excludeGlobs with
  | error err =>
    rw [hglobs] at hpatterns
    cases hpatterns
  | ok globs =>
    rw [h]
    exact ⟨_, _, _, rfl, registered_registerFiles hglobs e s disk paths origin⟩

/-! ## Names in several scripts -/

/-- Settings that exclude notes. -/
def noteless : Options := { exclude := ["*.md"] }

theorem parse_notes :
    Glob.parse "*.md" = .ok [.star, .literal '.', .literal 'm', .literal 'd'] := by
  change Glob.parseFrom .start none ['*', '.', 'm', 'd'] = _
  rw [Glob.parseFrom, if_neg (by decide), if_pos rfl]
  change Glob.parseFrom ⟨[.star], []⟩ (some '*') ['.', 'm', 'd'] = _
  simp [Glob.parseFrom, Glob.Scan.push]

theorem excludes_noteless {path : String} : noteless.Excludes path ↔
    Glob.isMatch [.star, .literal '.', .literal 'm', .literal 'd'] path = true := by
  simp [Options.Excludes, noteless, parse_notes]

/-- Paths in disorder, one of them twice. The last two ascend in the order of their bytes, but not
in that of their 16-bit units. -/
def mixedPaths : List String := ["b.ts", "lib/a.md", "a.ts", "b.ts", "\uff5e.ts", "𝔞.ts"]

/-- With a wrong name of the architecture nothing is registered, with good settings all but the
notes. -/
theorem register_exact_mixed :
    (new .inMemory).register Mini.engine .empty mixedPaths .live { arch := "a/b" } =
      (.error (.config (.architecture "a/b")), new .inMemory, []) ∧
    ∃ b s' calls, (new .inMemory).register Mini.engine .empty mixedPaths .live noteless =
        (.ok b, s', calls) ∧
      (∀ path, b.finds path = true ↔ path ∈ ["a.ts", "b.ts", "\uff5e.ts", "𝔞.ts"]) ∧
      b.set.files.Pairwise fun p q => p.toUTF8.toList < q.toUTF8.toList := by
  have hpatterns : Options.PatternsCompile noteless.exclude := ⟨_, .cons parse_notes .nil, rfl⟩
  have hvalid : noteless.validate = .ok () :=
    Options.validate_eq_ok_iff.2 ⟨by decide, nofun, hpatterns⟩
  have hnotes : ∀ path, path ∈ mixedPaths ∧ ¬noteless.Excludes path ↔
      path ∈ ["a.ts", "b.ts", "\uff5e.ts", "𝔞.ts"] := by
    have hmixed : ∀ p ∈ mixedPaths, p ∈ ["a.ts", "b.ts", "\uff5e.ts", "𝔞.ts"] ∨
        Glob.isMatch [.star, .literal '.', .literal 'm', .literal 'd'] p = true := by
      decide +kernel
    have htaken : ∀ p ∈ ["a.ts", "b.ts", "\uff5e.ts", "𝔞.ts"], p ∈ mixedPaths ∧
        ¬Glob.isMatch [.star, .literal '.', .literal 'm', .literal 'd'] p = true := by
      decide +kernel
    intro path
    rw [excludes_noteless]
    exact ⟨fun h => (hmixed path h.1).resolve_right h.2, htaken path⟩
  obtain ⟨b, s', calls, hb, hregistered⟩ :=
    (register_exact Mini.engine (new .inMemory) .empty mixedPaths .live noteless).2 hvalid
  exact ⟨(register_exact Mini.engine _ .empty mixedPaths .live _).1 _ rfl, b, s', calls, hb,
    fun path => (hregistered.finds_iff path).trans (hnotes path), hregistered.ascending⟩

end Session

end CompileCache
