import CompileCache.Proofs.Disk.Joined
import CompileCache.Proofs.Disk.Spelling
import CompileCache.Source.Directory

/-!
# Below — the files below a directory, and the walks to them

* **`mem_filesOf_iff`**, `nodup_filesOf`: the listed ways are those to regular files, each once.
* `walkFrom_directory`, `walk_directory`: a walk to a directory goes on to a file below it.
* `le_maxName_of_walk`: a walk passes no names that are too long.
* `names_below`: the names of the path of a file below a directory.
* `walk_entry_directory`, **`ways_eq`**: the path of a directory lists its files also if it ends in
  a link.
* `Admits`, `admits_of_node?`, **`node?_below`**: which of the files can be read by their paths.
-/

namespace CompileCache

namespace Node

theorem Tidy.tail {e : String × Node} {entries : List (String × Node)}
    (h : Tidy (.dir (e :: entries))) : Tidy (.dir entries) := by
  cases h with
  | dir sorted names nodes =>
    exact .dir (List.pairwise_cons.1 sorted).2 (fun e' he => names e' (List.mem_cons_of_mem e he))
      fun e' he => nodes e' (List.mem_cons_of_mem e he)

end Node

namespace Disk

variable {d : Disk}

/-! ## Listed files -/

theorem mem_filesIn_iff {entries : List (String × Node)} {way : List String} :
    way ∈ filesIn entries ↔
      ∃ name node ns, (name, node) ∈ entries ∧ ns ∈ filesOf node ∧ way = name :: ns := by
  induction entries with
  | nil => simp [filesIn]
  | cons e rest ih =>
    obtain ⟨name, node⟩ := e
    rw [filesIn, List.mem_append, List.mem_map, ih]
    constructor
    · rintro (⟨ns, hns, rfl⟩ | ⟨name', node', ns, he, hns, rfl⟩)
      · exact ⟨name, node, ns, List.mem_cons_self, hns, rfl⟩
      · exact ⟨name', node', ns, List.mem_cons_of_mem _ he, hns, rfl⟩
    · rintro ⟨name', node', ns, he, hns, rfl⟩
      rcases List.mem_cons.1 he with heq | he
      · obtain ⟨rfl, rfl⟩ := Prod.mk.inj heq
        exact .inl ⟨ns, hns, rfl⟩
      · exact .inr ⟨name', node', ns, he, hns, rfl⟩

/-- **The listed ways** are those to regular files. -/
theorem mem_filesOf_iff {x : Node} (hx : x.Tidy) {way : List String} :
    way ∈ filesOf x ↔ ∃ b, x.get? way = some (.file b) := by
  induction way generalizing x with
  | nil =>
    cases x with
    | file b => simp [filesOf, Node.get?]
    | link target => simp [filesOf, Node.get?]
    | dir entries => simp [filesOf, mem_filesIn_iff, Node.get?]
  | cons name ns ih =>
    cases x with
    | file b => simp [filesOf, Node.get?]
    | link target => simp [filesOf, Node.get?]
    | dir entries =>
      rw [filesOf, mem_filesIn_iff, Node.get?_cons]
      cases hx with
      | dir sorted _ nodes =>
        constructor
        · rintro ⟨name', node, ns', he, hns, heq⟩
          obtain ⟨rfl, rfl⟩ := List.cons.inj heq
          obtain ⟨b, hb⟩ := (ih (nodes _ he)).1 hns
          exact ⟨b, by rw [(KeyMap.lookup_eq_some_iff sorted).2 he, Option.bind_some, hb]⟩
        · rintro ⟨b, hb⟩
          obtain ⟨node, hnode, hget⟩ := Option.bind_eq_some_iff.1 hb
          have he := (KeyMap.lookup_eq_some_iff sorted).1 hnode
          exact ⟨name, node, ns, he, (ih (nodes _ he)).2 ⟨b, hget⟩, rfl⟩

mutual

theorem nodup_filesOf : ∀ {x : Node}, x.Tidy → (filesOf x).Nodup
  | .file _, _ => by
    rw [filesOf]
    exact List.pairwise_singleton _ _
  | .link _, _ => by
    rw [filesOf]
    exact .nil
  | .dir entries, h => by
    rw [filesOf]
    exact nodup_filesIn h

theorem nodup_filesIn : ∀ {entries : List (String × Node)}, Node.Tidy (.dir entries) →
    (filesIn entries).Nodup
  | [], _ => .nil
  | (name, node) :: rest, h => by
    have hnode : node.Tidy := by
      cases h with
      | dir _ _ nodes => exact nodes (name, node) List.mem_cons_self
    have hhead := nodup_filesOf hnode
    have htail := nodup_filesIn h.tail
    rw [filesIn]
    refine List.pairwise_append.2 ⟨?_, htail, ?_⟩
    · exact List.pairwise_map.2 (hhead.imp fun hne heq => hne (List.cons.inj heq).2)
    · -- the names of the other entries are greater
      intro way hway way' hway' heq
      obtain ⟨ns, -, rfl⟩ := List.mem_map.1 hway
      obtain ⟨name', node', ns', he, -, rfl⟩ := mem_filesIn_iff.1 hway'
      obtain ⟨rfl, -⟩ := List.cons.inj heq
      cases h with
      | dir sorted _ _ =>
        exact String.lt_irrefl name ((List.pairwise_cons.1 sorted).1 (name, node') he)

end

/-! ## Walks to directories and on -/

section Follow

variable {follow : List String → List String → Except Fault Place}

theorem walkFrom_down {here way : List String} {x : Node} {b : Body} (hx : d.get? here = some x)
    (ht : x.Tidy) (hb : x.get? way = some (.file b)) (hn : ∀ n ∈ way, n.utf8ByteSize ≤ maxName) :
    d.walkFrom .node follow here way = .ok ⟨here ++ way, some (.file b)⟩ := by
  induction way generalizing here x with
  | nil =>
    rw [Node.get?_nil] at hb
    cases hb
    rw [walkFrom, hx, List.append_nil]
  | cons name way ih =>
    cases x with
    | file c => cases hb
    | link target => cases hb
    | dir entries =>
      rw [Node.get?_cons] at hb
      obtain ⟨y, hy, hb⟩ := Option.bind_eq_some_iff.1 hb
      obtain ⟨hname, hrest⟩ := List.forall_mem_cons.1 hn
      have hproper := ht.isName_of_lookup hy
      simp only [Node.isName, Bool.and_eq_true, bne_iff_ne, ne_eq] at hproper
      obtain ⟨⟨⟨hempty, hdot⟩, hdots⟩, -⟩ := hproper
      have hidle : ¬Path.isIdle name = true := by simp [Path.isIdle, hempty, hdot]
      have hnext := ih ((get?_snoc hx name).trans hy) (ht.of_lookup hy) hb hrest
      rw [List.append_assoc, List.singleton_append] at hnext
      have hlink : ∀ target, y = .link target → False := by
        rintro target rfl
        cases way <;> cases hb
      rw [walkFrom_name hx hidle hdots (by simp) (by omega) hlink hy]
      exact hnext

/-- **A walk to a directory goes on** to a file below it. -/
theorem walkFrom_directory {here names ns way : List String} {entries : List (String × Node)}
    {b : Body} (hf : ∀ here names, follow here names = .ok ⟨ns, some (.dir entries)⟩ →
      follow here (names ++ way) = .ok ⟨ns ++ way, some (.file b)⟩)
    (h : d.walkFrom .node follow here names = .ok ⟨ns, some (.dir entries)⟩)
    (ht : Node.Tidy (.dir entries)) (hb : (Node.dir entries).get? way = some (.file b))
    (hn : ∀ n ∈ way, n.utf8ByteSize ≤ maxName) :
    d.walkFrom .node follow here (names ++ way) = .ok ⟨ns ++ way, some (.file b)⟩ := by
  fun_induction Disk.walkFrom d .node follow here names with
  | case1 here =>
    obtain ⟨rfl, hx⟩ := Place.mk.inj (Except.ok.inj h)
    exact walkFrom_down hx ht hb hn
  | case2 | case3 | case4 | case7 | case8 | case9 | case10 | case11 => cases h
  | case5 here name rest l hd hi ih =>
    rw [List.cons_append, walkFrom_idle hd hi]
    exact ih h
  | case6 here rest l hd hi ih =>
    rw [List.cons_append, walkFrom_up hd]
    exact ih h
  | case12 here name rest l hd hi hdd haim hlen target hl hr =>
    rw [List.cons_append, walkFrom_link hd hi hdd (by simp) hlen hl, if_neg (by simp),
      ← List.append_assoc]
    exact hf _ _ h
  | case13 here name rest l hd hi hdd haim hlen x hx hl ih =>
    rw [List.cons_append, walkFrom_name hd hi hdd (by simp) hlen hx hl]
    exact ih h

theorem le_maxName_of_walkFrom {aim : Aim} {here names : List String} {p : Place}
    (hf : ∀ here names, follow here names = .ok p → ∀ n ∈ names, n.utf8ByteSize ≤ maxName)
    (h : d.walkFrom aim follow here names = .ok p) : ∀ n ∈ names, n.utf8ByteSize ≤ maxName := by
  fun_induction Disk.walkFrom d aim follow here names with
  | case1 => exact fun n hn => absurd hn List.not_mem_nil
  | case2 | case3 | case4 | case7 | case8 | case10 => cases h
  | case5 here name rest l hd hi ih =>
    refine List.forall_mem_cons.2 ⟨?_, ih h⟩
    simp only [Path.isIdle, Bool.or_eq_true, beq_iff_eq] at hi
    rcases hi with rfl | rfl <;> decide
  | case6 here rest l hd hi ih => exact List.forall_mem_cons.2 ⟨by decide, ih h⟩
  | case9 here name rest l hd hi hdd haim hlen hl hrest =>
    refine List.forall_mem_cons.2 ⟨by omega, fun n hn => ?_⟩
    rw [eq_of_beq (List.all_eq_true.1 hrest n hn)]
    decide
  | case11 here name rest l hd hi hdd haim hlen target hl hr =>
    rw [hr.1]
    exact List.forall_mem_singleton.2 (by omega)
  | case12 here name rest l hd hi hdd haim hlen target hl hr =>
    have hall := hf _ _ h
    exact List.forall_mem_cons.2
      ⟨by omega, fun n hn => hall n (List.mem_append_right _ hn)⟩
  | case13 here name rest l hd hi hdd haim hlen x hx hl ih =>
    exact List.forall_mem_cons.2 ⟨by omega, ih h⟩

/-- A walk that may end in a link ends in one, or where the walk that follows it leads. -/
theorem walkFrom_entry_directory {follow' : List String → List String → Except Fault Place}
    {here names ns : List String} {entries : List (String × Node)}
    (hf : ∀ here names, follow here names = .ok ⟨ns, some (.dir entries)⟩ →
      follow' here names = .ok ⟨ns, some (.dir entries)⟩ ∨
        ∃ ms target, follow' here names = .ok ⟨ms, some (.link target)⟩)
    (h : d.walkFrom .node follow here names = .ok ⟨ns, some (.dir entries)⟩) :
    d.walkFrom .entry follow' here names = .ok ⟨ns, some (.dir entries)⟩ ∨
      ∃ ms target, d.walkFrom .entry follow' here names = .ok ⟨ms, some (.link target)⟩ := by
  fun_induction Disk.walkFrom d .node follow here names with
  | case1 here => exact .inl h
  | case2 | case3 | case4 | case7 | case8 | case9 | case10 | case11 => cases h
  | case5 here name rest l hd hi ih =>
    rw [walkFrom_idle hd hi]
    exact ih h
  | case6 here rest l hd hi ih =>
    rw [walkFrom_up hd]
    exact ih h
  | case12 here name rest l hd hi hdd haim hlen target hl hr =>
    rw [walkFrom_link hd hi hdd (by simp) hlen hl]
    split
    · exact .inr ⟨_, target, rfl⟩
    · exact hf _ _ h
  | case13 here name rest l hd hi hdd haim hlen x hx hl ih =>
    rw [walkFrom_name hd hi hdd (by simp) hlen hx hl]
    exact ih h

end Follow

theorem walk_directory {budget : Nat} {here names ns way : List String}
    {entries : List (String × Node)} {b : Body}
    (h : d.walk .node budget here names = .ok ⟨ns, some (.dir entries)⟩)
    (ht : Node.Tidy (.dir entries)) (hb : (Node.dir entries).get? way = some (.file b))
    (hn : ∀ n ∈ way, n.utf8ByteSize ≤ maxName) :
    d.walk .node budget here (names ++ way) = .ok ⟨ns ++ way, some (.file b)⟩ := by
  induction budget generalizing here names with
  | zero => exact walkFrom_directory (fun _ _ hf => by cases hf) h ht hb hn
  | succ budget ih => exact walkFrom_directory (fun _ _ hf => ih hf) h ht hb hn

theorem le_maxName_of_walk {aim : Aim} {budget : Nat} {here names : List String} {p : Place}
    (h : d.walk aim budget here names = .ok p) : ∀ n ∈ names, n.utf8ByteSize ≤ maxName := by
  induction budget generalizing here names with
  | zero => exact le_maxName_of_walkFrom (fun _ _ hf => by cases hf) h
  | succ budget ih => exact le_maxName_of_walkFrom (fun _ _ hf => ih hf) h

theorem walk_entry_directory {budget : Nat} {here names ns : List String}
    {entries : List (String × Node)}
    (h : d.walk .node budget here names = .ok ⟨ns, some (.dir entries)⟩) :
    d.walk .entry budget here names = .ok ⟨ns, some (.dir entries)⟩ ∨
      ∃ ms target, d.walk .entry budget here names = .ok ⟨ms, some (.link target)⟩ := by
  induction budget generalizing here names with
  | zero => exact walkFrom_entry_directory (fun _ _ hf => by cases hf) h
  | succ budget ih => exact walkFrom_entry_directory (fun _ _ hf => ih hf) h

/-! ## Names on the way -/

section Way

variable {way : List String}

theorem isName_of_get? {x y : Node} (ht : x.Tidy) (h : x.get? way = some y) :
    ∀ n ∈ way, Node.isName n = true := by
  induction way generalizing x with
  | nil => nofun
  | cons name way ih =>
    cases x with
    | file b => cases h
    | link target => cases h
    | dir entries =>
      rw [Node.get?_cons] at h
      obtain ⟨z, hz, h⟩ := Option.bind_eq_some_iff.1 h
      exact List.forall_mem_cons.2 ⟨ht.isName_of_lookup hz, ih (ht.of_lookup hz) h⟩

theorem slash_not_mem_of_isName {n : String} (h : Node.isName n = true) : '/' ∉ n.toList := by
  simp only [Node.isName, Bool.and_eq_true] at h
  simpa using h.2

theorem not_isIdle_of_isName {n : String} (h : Node.isName n = true) : Path.isIdle n = false := by
  simp only [Node.isName, Bool.and_eq_true, bne_iff_ne, ne_eq] at h
  simp [Path.isIdle, h.1.1.1, h.1.1.2]

theorem pieces_way (hne : way ≠ []) (hn : ∀ n ∈ way, Node.isName n = true) :
    Path.pieces ("/".intercalate way) = way :=
  Path.pieces_intercalate hne fun n hm => slash_not_mem_of_isName (hn n hm)

theorem isAbsolute_way (hne : way ≠ []) (hn : ∀ n ∈ way, Node.isName n = true) :
    Path.isAbsolute ("/".intercalate way) = false := by
  refine Bool.eq_false_iff.2 fun habsolute => ?_
  have hempty := Path.empty_mem_pieces habsolute
  rw [pieces_way hne hn] at hempty
  exact absurd (hn "" hempty) (by decide)

theorem filter_way (hn : ∀ n ∈ way, Node.isName n = true) :
    way.filter (fun n => !Path.isIdle n) = way :=
  List.filter_eq_self.2 fun n hm => by rw [not_isIdle_of_isName (hn n hm)]; rfl

theorem names_way (hne : way ≠ []) (hn : ∀ n ∈ way, Node.isName n = true) :
    Path.names ("/".intercalate way) = way := by
  unfold Path.names
  rw [pieces_way hne hn, filter_way hn]

theorem names_below (directory : String) (hne : way ≠ []) (hn : ∀ n ∈ way, Node.isName n = true) :
    Path.names (Path.join directory ("/".intercalate way)) = Path.names directory ++ way := by
  rw [Path.names_join directory (isAbsolute_way hne hn), names_way hne hn]

end Way

/-! ## Paths of directories and of files below them -/

section Directory

variable {directory : String} {entries : List (String × Node)} {way : List String}

theorem zero_not_mem_of_resolve {aim : Aim} {path : String} {p : Place}
    (hp : d.resolve aim path = .ok p) : '\x00' ∉ path.toList := by
  unfold resolve at hp
  split at hp
  · cases hp
  · split at hp
    · cases hp
    · next hzero => simpa using hzero

theorem resolve_of_node? {path : String} {x : Node} (h : d.node? path = .ok x) :
    ∃ ns, d.resolve .node path = .ok ⟨ns, some x⟩ := by
  unfold node? at h
  cases hp : d.resolve .node path with
  | error f => rw [hp] at h; cases h
  | ok p =>
    obtain ⟨ns, node⟩ := p
    rw [hp] at h
    cases node with
    | none => cases h
    | some y => cases h; exact ⟨ns, rfl⟩

theorem tidy_of_node? (h : d.node? directory = .ok (.dir entries)) :
    Node.Tidy (.dir entries) := by
  obtain ⟨ns, hp⟩ := resolve_of_node? h
  exact d.tidy.of_get? (resolve_node hp).symm

/-- **The files of a directory are listed** also if its path ends in a link. -/
theorem ways_eq (h : d.node? directory = .ok (.dir entries)) :
    d.ways directory = filesIn entries := by
  obtain ⟨ns, hp⟩ := resolve_of_node? h
  unfold ways
  rcases walk_entry_directory (walk_of_resolve hp) with hw | ⟨ms, target, hw⟩
  · rw [resolve_of_walk hp hw]
    dsimp only
    rw [filesOf]
  · rw [resolve_of_walk hp hw]
    dsimp only
    rw [h]

theorem mem_ways_iff (h : d.node? directory = .ok (.dir entries)) :
    way ∈ d.ways directory ↔ ∃ b, (Node.dir entries).get? way = some (.file b) := by
  rw [ways_eq h, ← mem_filesOf_iff (tidy_of_node? h), filesOf]

/-- Whether a file below a directory can be read by its path. -/
structure Admits (directory : String) (way : List String) : Prop where
  path : (Path.join directory ("/".intercalate way)).utf8ByteSize < maxPath
  names : ∀ n ∈ way, n.utf8ByteSize ≤ maxName ∧ '\x00' ∉ n.toList

section Reading

variable (h : d.node? directory = .ok (.dir entries))

include h

theorem proper_way {b : Body} (hb : (Node.dir entries).get? way = some (.file b)) :
    way ≠ [] ∧ ∀ n ∈ way, Node.isName n = true := by
  refine ⟨?_, isName_of_get? (tidy_of_node? h) hb⟩
  rintro rfl
  cases hb

theorem admits_of_node? {b : Body} (hb : (Node.dir entries).get? way = some (.file b)) {x : Node}
    (hx : d.node? (Path.join directory ("/".intercalate way)) = .ok x) : Admits directory way := by
  obtain ⟨hne, hn⟩ := proper_way h hb
  obtain ⟨ns, hp⟩ := resolve_of_node? hx
  obtain ⟨ps, hps, -⟩ := Path.exists_pieces_join directory (isAbsolute_way hne hn)
  have hlong := le_maxName_of_walk (walk_of_resolve hp)
  have hzero := zero_not_mem_of_resolve hp
  rw [Path.mem_toList_iff_of_names (by decide) (by decide), names_below directory hne hn] at hzero
  rw [hps, pieces_way hne hn] at hlong
  exact ⟨byteSize_lt_of_node? hx, fun n hm => ⟨hlong n (List.mem_append_right ps hm), fun hc =>
    hzero ⟨n, List.mem_append_right _ hm, hc⟩⟩⟩

/-- **A file below a directory can be read by its path** if that and the names are not too long. -/
theorem node?_below {b : Body} (hb : (Node.dir entries).get? way = some (.file b))
    (ha : Admits directory way) :
    d.node? (Path.join directory ("/".intercalate way)) = .ok (.file b) := by
  obtain ⟨hne, hn⟩ := proper_way h hb
  obtain ⟨ns, hp⟩ := resolve_of_node? h
  obtain ⟨ps, hps, -⟩ := Path.exists_pieces_join directory (isAbsolute_way hne hn)
  rw [pieces_way hne hn] at hps
  have hnames := names_below directory hne hn
  have hends : EndsInName (Path.pieces (Path.join directory ("/".intercalate way))) := by
    have hway : EndsInName way := fun n hlast =>
      not_isIdle_of_isName (hn n (List.mem_of_mem_getLast? hlast))
    rw [hps]
    exact hway.append fun hnil => absurd hnil hne
  have hwalk : d.walk .node maxLinks [] (Path.pieces (Path.join directory ("/".intercalate way))) =
      .ok ⟨ns ++ way, some (.file b)⟩ := by
    have hdown := walk_directory (walk_of_resolve hp) (tidy_of_node? h) hb fun n hm =>
      (ha.names n hm).1
    refine walk_respell hdown (hnames.trans ?_) hends
    rw [List.filter_append, filter_way hn]
    rfl
  have hempty : Path.join directory ("/".intercalate way) ≠ "" := fun heq => by
    rw [heq] at hnames
    exact hne (List.append_eq_nil_iff.1 hnames.symm).2
  have hzero : '\x00' ∉ (Path.join directory ("/".intercalate way)).toList := by
    rw [Path.mem_toList_iff_of_names (by decide) (by decide), hnames]
    rintro ⟨n, hm, hc⟩
    rcases List.mem_append.1 hm with hm | hm
    · exact zero_not_mem_of_resolve hp
        ((Path.mem_toList_iff_of_names (by decide) (by decide)).2 ⟨n, hm, hc⟩)
    · exact (ha.names n hm).2 hc
  have hpath := ha.path
  unfold node? resolve
  rw [if_neg hempty, if_neg (by simpa using hzero), if_neg (by omega), hwalk]
  rfl

end Reading

end Directory

end Disk

end CompileCache
