import CompileCache.Proofs.Disk.Below
import CompileCache.Proofs.Text.ByteOrder
import CompileCache.Proofs.Text.Rows

/-!
# Discovery — the files below a directory, found and read

* `Disk.Opens`, `Disk.opens_iff`: the directories on a way that can be opened by their paths.
* `Disk.mem_discover_iff`, `Disk.strictly_discover`: what is found, and in which order.
* `Body.text?_eq_some_iff`, **`Disk.content_below_iff`**: what is read of the files below a
  directory.
* **`Disk.discovery_exact`**: discovery lists the files with the extensions that are looked for, and
  each has its text as content, as far as paths may be long.
-/

namespace CompileCache

theorem Body.text?_eq_some_iff {b : Body} {t : String} :
    b.text? = some t ↔ b = .bytes t.toUTF8 := by
  cases b with
  | entry e => exact ⟨nofun, nofun⟩
  | bytes bs =>
    unfold text? String.fromUTF8?
    dsimp only
    rw [Body.bytes.injEq]
    constructor
    · intro h
      by_cases hv : bs.IsValidUTF8
      · rw [dif_pos hv] at h
        rw [← Option.some.inj h]
        rfl
      · rw [dif_neg hv] at h
        cases h
    · rintro rfl
      exact dif_pos t.isValidUTF8

namespace Disk

variable {d : Disk} {directory : String} {entries : List (String × Node)} {way : List String}

/-! ## What is found -/

/-- A directory above a file and all between them can be opened by their paths. -/
def Opens (directory : String) (above : List String) : Prop :=
  ∀ ns, ns <+: above → (ns.foldl Path.join directory).utf8ByteSize < maxPath

theorem opens_iff (hn : ∀ n ∈ way, Node.isName n = true) :
    opens directory way = true ↔ Opens directory way.dropLast := by
  unfold opens Opens
  rw [decide_eq_true_eq]
  constructor
  · rintro h ns ⟨ms, hms⟩
    rw [← hms, List.foldl_append] at h
    refine Nat.lt_of_le_of_lt (Path.byteSize_le_foldl_join _ fun n hm => ?_) h
    refine Path.isAbsolute_of_plain (slash_not_mem_of_isName (hn n ?_))
    exact List.dropLast_subset _ (hms ▸ List.mem_append_right ns hm)
  · exact fun h => h _ List.prefix_rfl

theorem opens_of_extent_lt {above : List String}
    (h : directory.utf8ByteSize + Path.extent above < maxPath) : Opens directory above := by
  rintro ns ⟨ms, rfl⟩
  have hns := Path.byteSize_foldl_join_le directory ns
  rw [Path.extent_append] at h
  omega

theorem hasExtension_iff {extensions : List String} {name : String} :
    hasExtension extensions name = true ↔ ∃ e ∈ extensions, ∃ stem, name = stem ++ "." ++ e := by
  unfold hasExtension
  rw [List.any_eq_true]
  refine exists_congr fun e => and_congr_right fun _ => ?_
  rw [List.isSuffixOf_iff_suffix]
  constructor
  · rintro ⟨stem, hstem⟩
    refine ⟨String.ofList stem, String.toList_inj.1 ?_⟩
    rw [← hstem]
    simp
  · rintro ⟨stem, rfl⟩
    exact ⟨stem.toList, by simp⟩

theorem lastName_snoc (directory : String) (above : List String) (name : String) :
    lastName directory (above ++ [name]) = name := by
  simp [lastName, ← List.append_assoc]

section Directory

variable (h : d.node? directory = .ok (.dir entries))

include h

/-- **What is found**: the files below the directory that have one of the extensions and stand in
directories that can be opened. -/
theorem mem_discover_iff {extensions : List String} {p : String} :
    p ∈ d.discover directory extensions ↔
      ∃ above name b, (Node.dir entries).get? (above ++ [name]) = some (.file b) ∧
        p = "/".intercalate (above ++ [name]) ∧ Opens directory above ∧
        ∃ e ∈ extensions, ∃ stem, name = stem ++ "." ++ e := by
  unfold discover
  rw [List.mem_mergeSort, List.mem_map]
  constructor
  · rintro ⟨way, hway, rfl⟩
    obtain ⟨hfile, hwanted⟩ := List.mem_filter.1 hway
    obtain ⟨b, hb⟩ := (mem_ways_iff h).1 hfile
    obtain ⟨hne, hn⟩ := proper_way h hb
    obtain ⟨hopens, hextension⟩ := (Bool.and_eq_true _ _).mp hwanted
    have hlast := List.dropLast_concat_getLast hne
    rw [← hlast, lastName_snoc] at hextension
    refine ⟨way.dropLast, way.getLast hne, b, ?_, ?_, (opens_iff hn).1 hopens,
      hasExtension_iff.1 hextension⟩ <;> rw [hlast]
    exact hb
  · rintro ⟨above, name, b, hb, rfl, hopens, hextension⟩
    refine ⟨above ++ [name], List.mem_filter.2 ⟨(mem_ways_iff h).2 ⟨b, hb⟩, ?_⟩, rfl⟩
    refine (Bool.and_eq_true _ _).mpr ⟨(opens_iff (proper_way h hb).2).2 ?_, ?_⟩
    · rwa [List.dropLast_concat]
    · rw [lastName_snoc]
      exact hasExtension_iff.2 hextension

/-- **What is found is strictly ascending**: different ways give different paths. -/
theorem strictly_discover (extensions : List String) :
    (d.discover directory extensions).Pairwise (· < ·) := by
  have hways : ((d.ways directory).filter (isWanted directory extensions)).Nodup := by
    rw [ways_eq h]
    exact (nodup_filesIn (tidy_of_node? h)).filter _
  have hproper : ∀ way ∈ (d.ways directory).filter (isWanted directory extensions),
      way ≠ [] ∧ ∀ n ∈ way, '/' ∉ n.toList := fun way hway => by
    obtain ⟨b, hb⟩ := (mem_ways_iff h).1 (List.mem_filter.1 hway).1
    obtain ⟨hne, hn⟩ := proper_way h hb
    exact ⟨hne, fun n hm => slash_not_mem_of_isName (hn n hm)⟩
  have hpaths : (((d.ways directory).filter (isWanted directory extensions)).map
      ("/".intercalate ·)).Nodup := by
    refine List.pairwise_map.2 (hways.imp_of_mem fun hm hm' hne heq => hne ?_)
    obtain ⟨hnil, hslash⟩ := hproper _ hm
    obtain ⟨hnil', hslash'⟩ := hproper _ hm'
    exact Path.intercalate_inj hnil hnil' hslash hslash' heq
  have hsorted : (d.discover directory extensions).Pairwise (· ≤ ·) := by
    have hmerge := @List.pairwise_mergeSort String (fun a b => decide (a ≤ b))
      (fun a b c hab hbc => by
        simpa using String.le_trans (by simpa using hab) (by simpa using hbc))
      (fun a b => by simpa using String.le_total a b)
      (((d.ways directory).filter (isWanted directory extensions)).map ("/".intercalate ·))
    exact hmerge.imp of_decide_eq_true
  have hdistinct : (d.discover directory extensions).Nodup :=
    (List.mergeSort_perm _ _).nodup_iff.2 hpaths
  exact hsorted.imp₂ (fun a b hle hne => String.not_le.1 fun hge =>
    hne (String.le_antisymm hle hge)) hdistinct

/-! ## What can be read -/

/-- **The content of a file below a directory** is its text, if it is one of at most ten mebibytes
and can be read by its path. -/
theorem content_below_iff {b : Body} (hb : (Node.dir entries).get? way = some (.file b))
    {t : String} :
    (Source.ofDirectory d directory).content ("/".intercalate way) = some t ↔
      Admits directory way ∧ b = .bytes t.toUTF8 ∧ t.utf8ByteSize ≤ maxSourceSize := by
  change d.sourceText? directory ("/".intercalate way) = some t ↔ _
  unfold sourceText?
  by_cases ha : Admits directory way
  · rw [node?_below h hb ha]
    dsimp only
    constructor
    · intro ht
      split at ht
      · next hsize =>
        have hbytes := Body.text?_eq_some_iff.1 ht
        rw [hbytes] at hsize
        exact ⟨ha, hbytes, hsize⟩
      · cases ht
    · rintro ⟨-, rfl, hsize⟩
      rw [if_pos (show (Body.bytes t.toUTF8).size ≤ maxSourceSize from hsize)]
      exact Body.text?_eq_some_iff.2 rfl
  · refine ⟨fun ht => ?_, fun hor => absurd hor.1 ha⟩
    split at ht
    · next hx => exact absurd (admits_of_node? h hb hx) ha
    · cases ht

omit h in
/-- **Discovery is exact and agrees with reading.** What is found is strictly ascending by its
bytes. It is the regular files below the directory, not through links, whose names end in a point
and one of the extensions, as far as the directories that they stand in can be opened. Each has its
text as content if it is a text of at most ten mebibytes and can be read by its path, and no content
otherwise. -/
theorem discovery_exact (h : d.node? directory = .ok (.dir entries)) (extensions : List String) :
    (d.discover directory extensions).Pairwise (fun p q => p.toUTF8.toList < q.toUTF8.toList) ∧
      (∀ p, p ∈ d.discover directory extensions ↔
        ∃ above name b, (Node.dir entries).get? (above ++ [name]) = some (.file b) ∧
          p = "/".intercalate (above ++ [name]) ∧ Opens directory above ∧
          ∃ e ∈ extensions, ∃ stem, name = stem ++ "." ++ e) ∧
      ∀ above name b, (Node.dir entries).get? (above ++ [name]) = some (.file b) → ∀ t,
        (Source.ofDirectory d directory).content ("/".intercalate (above ++ [name])) = some t ↔
          Admits directory (above ++ [name]) ∧ b = .bytes t.toUTF8 ∧
            t.utf8ByteSize ≤ maxSourceSize :=
  ⟨(strictly_discover h extensions).imp fun hlt => (Text.lt_iff_bytes_lt).1 hlt,
    fun _ => mem_discover_iff h, fun _ _ _ hb _ => content_below_iff h hb⟩

end Directory

/-! ## A small tree and a deep one -/

/-- The entries of a directory whose order is not that of the paths of the files below it. -/
def mixedEntries : List (String × Node) :=
  [("a", .dir [("x.d.ts", .file (.ofText "é"))]), ("a.ts", .file (.bytes ⟨#[255]⟩)),
    ("l.ts", .link "a.ts")]

/-- A disk with a directory `r` that has these entries. -/
def mixedDisk : Disk where
  entries := [("r", .dir mixedEntries)]
  tidy := by
    have hsub : Node.Tidy (.dir [("x.d.ts", .file (.ofText "é"))]) :=
      .dir (List.pairwise_singleton _ _) (by decide) (List.forall_mem_singleton.2 (.file _))
    refine .dir (List.pairwise_singleton _ _) (by decide) (List.forall_mem_singleton.2 ?_)
    refine .dir (by decide) (by decide) fun e he => ?_
    simp only [mixedEntries, List.mem_cons, List.not_mem_nil, or_false] at he
    rcases he with rfl | rfl | rfl
    · exact hsub
    · exact .file _
    · exact .link _

/-- Both files are found once, the link is not, and the file that is no text has no content. -/
theorem discovery_exact_mixed :
    mixedDisk.node? "r" = .ok (.dir mixedEntries) ∧
      "a/x.d.ts" ∈ mixedDisk.discover "r" ["ts", "d.ts"] ∧
      "a.ts" ∈ mixedDisk.discover "r" ["ts", "d.ts"] ∧
      (mixedDisk.discover "r" ["ts", "d.ts"]).Pairwise
        (fun p q => p.toUTF8.toList < q.toUTF8.toList) ∧
      (Source.ofDirectory mixedDisk "r").content "a/x.d.ts" = some "é" ∧
      ∀ t, (Source.ofDirectory mixedDisk "r").content "a.ts" ≠ some t := by
  have hdir : mixedDisk.node? "r" = .ok (.dir mixedEntries) := rfl
  obtain ⟨hsorted, hmem, hcontent⟩ := discovery_exact hdir ["ts", "d.ts"]
  refine ⟨hdir, (hmem _).2 ?_, (hmem _).2 ?_, hsorted, ?_, fun t ht => ?_⟩
  · exact ⟨["a"], "x.d.ts", _, rfl, by decide, opens_of_extent_lt (by decide), "ts", by decide,
      "x.d", by decide⟩
  · exact ⟨[], "a.ts", _, rfl, by decide, opens_of_extent_lt (by decide), "ts", by decide, "a",
      by decide⟩
  · exact (hcontent ["a"] "x.d.ts" _ rfl "é").2 ⟨⟨by decide, by decide⟩, rfl, by decide⟩
  · obtain ⟨-, hbytes, -⟩ := (hcontent [] "a.ts" _ rfl t).1 ht
    have hnone : (Body.bytes ⟨#[255]⟩).text? = none := by decide +kernel
    rw [Body.text?_eq_some_iff.2 hbytes] at hnone
    cases hnone

/-- A name of many bytes, three more than a number says. -/
def longName (k : Nat) : String := String.ofList (List.replicate k 'a') ++ "." ++ "ts"

theorem byteSize_longName (k : Nat) : (longName k).utf8ByteSize = k + 3 := by
  have hreplicate : Json.byteSize (List.replicate k 'a') = k := by
    induction k with
    | zero => rfl
    | succ k ih =>
      rw [List.replicate_succ, Text.byteSize_cons, ih]
      exact Nat.add_comm 1 k
  have htail : ".".utf8ByteSize + "ts".utf8ByteSize = 3 := rfl
  rw [longName, String.utf8ByteSize_append, String.utf8ByteSize_append, Text.utf8ByteSize_ofList,
    hreplicate, Nat.add_assoc, htail]

theorem isName_longName (k : Nat) : Node.isName (longName k) = true := by
  have htoList : (longName k).toList = List.replicate k 'a' ++ ['.', 't', 's'] := by
    simp [longName]
  have hmem : 't' ∈ (longName k).toList := by simp [htoList]
  have hslash : '/' ∉ (longName k).toList := by simp [htoList]
  have hne : ∀ s : String, 't' ∉ s.toList → longName k ≠ s := fun s hs h => hs (h ▸ hmem)
  simp only [Node.isName, Bool.and_eq_true, bne_iff_ne]
  exact ⟨⟨⟨hne "" (by decide), hne "." (by decide)⟩, hne ".." (by decide)⟩, by simpa using hslash⟩

/-- A name of 255 bytes. -/
def deepName : String := longName 252

/-- A node below some directories, each the only entry of the one above. -/
def nested (x : Node) : Nat → Node
  | 0 => x
  | k + 1 => .dir [(deepName, nested x k)]

theorem tidy_nested {x : Node} (hx : x.Tidy) (k : Nat) : (nested x k).Tidy := by
  induction k with
  | zero => exact hx
  | succ k ih =>
    exact .dir (List.pairwise_singleton _ _) (List.forall_mem_singleton.2 (isName_longName 252))
      (List.forall_mem_singleton.2 ih)

theorem get?_nested (x : Node) (k : Nat) :
    (nested x k).get? (List.replicate k deepName) = some x := by
  induction k with
  | zero => exact Node.get?_nil x
  | succ k ih =>
    have hlookup : KeyMap.lookup deepName [(deepName, nested x k)] = some (nested x k) := if_pos rfl
    rw [nested, List.replicate_succ, Node.get?_cons, hlookup]
    exact ih

/-- A text sixteen names below a directory `r`. -/
def deepDisk : Disk where
  entries := [("r", nested (.file (.ofText "x")) 16)]
  tidy := .dir (List.pairwise_singleton _ _) (by decide)
    (List.forall_mem_singleton.2 (tidy_nested (.file _) 16))

/-- **A file with a long path is found, but not read.** -/
theorem content_deep :
    deepDisk.node? "r" = .ok (nested (.file (.ofText "x")) 16) ∧
      (nested (.file (.ofText "x")) 16).get? (List.replicate 16 deepName) =
        some (.file (.ofText "x")) ∧
      "/".intercalate (List.replicate 16 deepName) ∈ deepDisk.discover "r" ["ts"] ∧
      (Source.ofDirectory deepDisk "r").content ("/".intercalate (List.replicate 16 deepName)) =
        none := by
  have hdir : deepDisk.node? "r" = .ok (nested (.file (.ofText "x")) 16) := rfl
  have hfile := get?_nested (.file (.ofText "x")) 16
  have hsize : deepName.utf8ByteSize = 255 := byteSize_longName 252
  have hproper : ∀ n ∈ List.replicate 16 deepName, Node.isName n = true := fun n hn =>
    (List.eq_of_mem_replicate hn).symm ▸ isName_longName 252
  have hpathSize : ("/".intercalate (List.replicate 16 deepName)).utf8ByteSize + 1 = 4096 := by
    rw [Path.byteSize_intercalate (by decide), Path.extent_replicate, hsize]
  have hlast : List.replicate 16 deepName = List.replicate 15 deepName ++ [deepName] :=
    List.replicate_succ'
  refine ⟨hdir, hfile, (mem_discover_iff hdir).2 ?_, ?_⟩
  · refine ⟨List.replicate 15 deepName, deepName, .ofText "x", hlast ▸ hfile, by rw [hlast],
      opens_of_extent_lt ?_, "ts", List.mem_singleton_self _, _, rfl⟩
    rw [Path.extent_replicate, hsize]
    decide
  · refine Option.eq_none_iff_forall_ne_some.2 fun t ht => ?_
    have hshort := ((content_below_iff hdir hfile).1 ht).1.path
    have hjoin := Path.byteSize_add_le_join "r" (isAbsolute_way (by simp) hproper)
    have hr : "r".utf8ByteSize = 1 := rfl
    have hmax : maxPath = 4096 := rfl
    omega

end Disk

end CompileCache
