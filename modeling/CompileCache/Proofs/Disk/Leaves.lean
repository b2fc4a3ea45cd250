import CompileCache.Disk.Files

/-!
# Leaves — the files and links of a disk, and what writing does to them

* `Disk.leaf?`: the file or the link at the end of a way. Directories are no leaves.
* `Disk.walk_node`: a walk ends at the node of the way that it found.
* **`Disk.leaf?_makeDirs`**: making directories changes no leaf; **`Disk.leaf?_writeUnder`**:
  writing a file changes at most one.
* `Disk.HasEntry`, **`Disk.hasEntry_writeUnder`**: the entries on a disk, and those after a write.
* `Disk.Straight`, `Disk.Straight.names_eq`: a path without two points that passes no link leads to
  its names.
* **`Disk.read_writeUnder_of_ne`**: writing under a straight path leaves the other straight paths.
-/

namespace CompileCache

namespace Node

/-- Whether a node is a link. -/
def isLink : Node → Bool
  | .link _ => true
  | _ => false

/-- Whether a node is a directory. -/
def isDir : Node → Bool
  | .dir _ => true
  | _ => false

/-- The file or the link at the end of a way of names. -/
def leaf? (x : Node) (ns : List String) : Option Node := (x.get? ns).filter fun y => !y.isDir

/-- There is nothing below a node. -/
def Bare (x : Node) : Prop := ∀ n ns, x.get? (n :: ns) = none

theorem bare_file (b : Body) : (Node.file b).Bare := fun _ _ => rfl

theorem bare_link (target : String) : (Node.link target).Bare := fun _ _ => rfl

theorem bare_nil : (Node.dir []).Bare := fun _ _ => rfl

theorem get?_append (x : Node) (ns ms : List String) :
    x.get? (ns ++ ms) = (x.get? ns).bind (·.get? ms) := by
  induction ns generalizing x with
  | nil => cases x <;> rfl
  | cons n ns ih =>
    cases x with
    | file b => rfl
    | link target => rfl
    | dir entries =>
      rw [List.cons_append, get?_cons, get?_cons]
      cases KeyMap.lookup n entries with
      | none => rfl
      | some y => exact ih y

theorem leaf?_cons (entries : List (String × Node)) (n : String) (ns : List String) :
    (Node.dir entries).leaf? (n :: ns) = (KeyMap.lookup n entries).bind (·.leaf? ns) := by
  unfold leaf?
  rw [get?_cons]
  cases KeyMap.lookup n entries <;> rfl

theorem Bare.leaf?_cons {x : Node} (h : x.Bare) (n : String) (ns : List String) :
    x.leaf? (n :: ns) = none := by
  rw [leaf?, h n ns]; rfl

theorem leaf?_putIn_of_ne {x : Node} (hx : x.Bare) {ns ms : List String}
    {entries : List (String × Node)} (hv : ∀ y, (Node.dir entries).get? ns = some y → y.Bare)
    (hne : ms ≠ ns) : (Node.dir (putIn x ns entries)).leaf? ms = (Node.dir entries).leaf? ms := by
  fun_induction Node.putIn x ns entries generalizing ms with
  | case1 => rfl
  | case2 n entries hn =>
    cases ms with
    | nil => rfl
    | cons m ms =>
      rw [leaf?_cons, leaf?_cons, KeyMap.lookup_insertSorted]
      by_cases hm : m = n
      · subst hm
        rw [if_pos rfl]
        cases ms with
        | nil => exact absurd rfl hne
        | cons m' ms =>
          rw [Option.bind_some, hx.leaf?_cons]
          cases hl : KeyMap.lookup m entries with
          | none => rfl
          | some y =>
            have hy : y.Bare := hv y (by rw [get?_cons, hl]; cases y <;> rfl)
            rw [Option.bind_some, hy.leaf?_cons]
      · rw [if_neg hm]
  | case3 => rfl
  | case4 n ns entries _ sub hs hn ih =>
    cases ms with
    | nil => rfl
    | cons m ms =>
      rw [leaf?_cons, leaf?_cons, KeyMap.lookup_insertSorted]
      by_cases hm : m = n
      · subst hm
        rw [if_pos rfl, hs, Option.bind_some, Option.bind_some]
        refine ih (fun y hy => hv y ?_) fun h => hne (by rw [h])
        rw [get?_cons, hs]
        exact hy
      · rw [if_neg hm]
  | case5 => rfl
  | case6 => rfl

theorem leaf?_putIn_self (x : Node) (ns : List String) (entries : List (String × Node)) :
    (Node.dir (putIn x ns entries)).leaf? ns = x.leaf? [] ∨
      (Node.dir (putIn x ns entries)).leaf? ns = (Node.dir entries).leaf? ns := by
  fun_induction Node.putIn x ns entries with
  | case1 => exact .inr rfl
  | case2 n entries hn =>
    refine .inl ?_
    rw [leaf?_cons, KeyMap.lookup_insertSorted, if_pos rfl]
    rfl
  | case3 => exact .inr rfl
  | case4 n ns entries _ sub hs hn ih =>
    rw [leaf?_cons, leaf?_cons, KeyMap.lookup_insertSorted, if_pos rfl, hs]
    exact ih
  | case5 => exact .inr rfl
  | case6 => exact .inr rfl

end Node

namespace Disk

open Node (Bare)

variable {d d' : Disk}

/-! ## Walks -/

/-- The file or the link at the end of a way of names from the root. -/
def leaf? (d : Disk) (ns : List String) : Option Node := (Node.dir d.entries).leaf? ns

theorem leaf?_eq (d : Disk) (ns : List String) :
    d.leaf? ns = (d.get? ns).filter fun y => !y.isDir := rfl

theorem get?_of_leaf? {ns : List String} {x : Node} (h : d.leaf? ns = some x) :
    d.get? ns = some x := (Option.filter_eq_some_iff.1 h).1

theorem get?_append (d : Disk) (ns ms : List String) :
    d.get? (ns ++ ms) = (d.get? ns).bind (·.get? ms) := Node.get?_append _ ns ms

theorem get?_snoc {here : List String} {entries : List (String × Node)}
    (h : d.get? here = some (.dir entries)) (name : String) :
    d.get? (here ++ [name]) = KeyMap.lookup name entries := by
  rw [get?_append, h, Option.bind_some, Node.get?_cons]
  cases KeyMap.lookup name entries with
  | none => rfl
  | some y => cases y <;> rfl

theorem walkFrom_node {aim : Aim} {follow : List String → List String → Except Fault Place}
    (hf : ∀ here names p, follow here names = .ok p → p.node = d.get? p.names)
    {here names : List String} {p : Place} (h : d.walkFrom aim follow here names = .ok p) :
    p.node = d.get? p.names := by
  fun_induction Disk.walkFrom d aim follow here names with
  | case1 here => cases h; rfl
  | case2 | case3 | case4 | case7 | case8 | case10 => cases h
  | case5 _ _ _ _ _ _ ih => exact ih h
  | case6 _ _ _ _ _ ih => exact ih h
  | case9 here name rest entries hd _ _ _ _ hl =>
    cases h
    exact ((get?_snoc hd name).trans hl).symm
  | case11 here name rest entries hd _ _ _ _ target hl =>
    cases h
    exact ((get?_snoc hd name).trans hl).symm
  | case12 => exact hf _ _ _ h
  | case13 _ _ _ _ _ _ _ _ _ _ _ _ ih => exact ih h

/-- **A walk ends at the node of the way that it found.** -/
theorem walk_node {aim : Aim} {budget : Nat} {here names : List String} {p : Place}
    (h : d.walk aim budget here names = .ok p) : p.node = d.get? p.names := by
  induction budget generalizing here names p with
  | zero => exact walkFrom_node (fun _ _ _ hf => by cases hf) h
  | succ budget ih => exact walkFrom_node (fun _ _ _ hf => ih hf) h

theorem exists_walkFrom (d : Disk) (aim : Aim) (budget : Nat) :
    ∃ follow, d.walk aim budget = d.walkFrom aim follow ∧
      ∀ here names p, follow here names = .ok p → p.node = d.get? p.names := by
  cases budget with
  | zero => exact ⟨_, rfl, fun _ _ _ h => by cases h⟩
  | succ budget => exact ⟨_, rfl, fun _ _ _ h => walk_node h⟩

theorem walk_of_resolve {aim : Aim} {path : String} {p : Place} (h : d.resolve aim path = .ok p) :
    d.walk aim maxLinks [] (Path.pieces path) = .ok p := by
  unfold resolve at h
  split at h
  · cases h
  split at h
  · cases h
  split at h
  · cases h
  exact h

theorem resolve_of_walk {aim aim' : Aim} {path : String} {p p' : Place}
    (h : d.resolve aim path = .ok p) (hw : d'.walk aim' maxLinks [] (Path.pieces path) = .ok p') :
    d'.resolve aim' path = .ok p' := by
  unfold resolve at h ⊢
  split at h
  · cases h
  · next h₁ =>
    split at h
    · cases h
    · next h₂ =>
      split at h
      · cases h
      · next h₃ => rw [if_neg h₁, if_neg h₂, if_neg h₃, hw]

theorem resolve_node {aim : Aim} {path : String} {p : Place} (h : d.resolve aim path = .ok p) :
    p.node = d.get? p.names := walk_node (walk_of_resolve h)

theorem resolve_of_read {path : String} {b : Body} (h : d.read path = .ok b) :
    ∃ names, d.resolve .node path = .ok ⟨names, some (.file b)⟩ := by
  unfold read node? at h
  cases hp : d.resolve .node path with
  | error f => rw [hp] at h; cases h
  | ok p =>
    obtain ⟨names, node⟩ := p
    rw [hp] at h
    cases node with
    | none => cases h
    | some x => cases x <;> cases h; exact ⟨names, rfl⟩

theorem isFile_of_read {path : String} {b : Body} (h : d.read path = .ok b) :
    d.isFile path = true := by
  obtain ⟨names, hp⟩ := resolve_of_read h
  unfold isFile node?
  rw [hp]
  rfl

theorem leaf?_of_read {path : String} {b : Body} (h : d.read path = .ok b) :
    ∃ names, d.leaf? names = some (.file b) := by
  obtain ⟨names, hp⟩ := resolve_of_read h
  refine ⟨names, ?_⟩
  rw [leaf?_eq, ← resolve_node hp]
  rfl

/-! ## Writing -/

theorem leaf?_put_of_ne {x : Node} (hx : x.Tidy) (hb : x.Bare) {names ns : List String}
    (hv : ∀ y, d.get? names = some y → y.Bare) (hne : ns ≠ names) :
    (d.put names x hx).leaf? ns = d.leaf? ns := Node.leaf?_putIn_of_ne hb hv hne

theorem leaf?_putDir {names : List String} (h : d.get? names = none) :
    (d.putDir names).leaf? = d.leaf? := by
  funext ns
  by_cases hn : ns = names
  · subst hn
    rcases Node.leaf?_putIn_self (.dir []) ns d.entries with h' | h'
    · have hn : d.leaf? ns = none := by rw [leaf?_eq, h]; rfl
      rw [hn]
      exact h'
    · exact h'
  · exact leaf?_put_of_ne .nil Node.bare_nil (fun y hy => by rw [h] at hy; cases hy) hn

theorem get?_of_vacant {path : String} {names : List String} (h : d.vacant path = .ok names) :
    d.get? names = none := by
  unfold vacant at h
  split at h
  · cases h
  cases hp : d.resolve .entry (unslashed path) with
  | error f => rw [hp] at h; cases h
  | ok p =>
    obtain ⟨ns, node⟩ := p
    rw [hp] at h
    cases node with
    | none =>
      cases h
      exact (resolve_node hp).symm
    | some x => cases h

theorem leaf?_makeDir {path : String} (h : d.makeDir path = .ok d') : d'.leaf? = d.leaf? := by
  unfold makeDir at h
  cases hv : d.vacant path with
  | error f => rw [hv] at h; cases h
  | ok names =>
    rw [hv] at h
    cases h
    exact leaf?_putDir (get?_of_vacant hv)

theorem leaf?_makeDirsFrom (path : String) (above : List String) :
    (d.makeDirsFrom path above).1.leaf? = d.leaf? := by
  induction above generalizing path with
  | nil =>
    unfold makeDirsFrom
    split
    · next h => exact leaf?_makeDir h
    · rfl
  | cons name above ih =>
    have h₁ := ih ("/" ++ "/".intercalate (name :: above).reverse)
    unfold makeDirsFrom
    split
    · next h => exact leaf?_makeDir h
    · split
      · next h => rw [h] at h₁; exact h₁
      · next h =>
        rw [h] at h₁
        split
        · next h₂ => exact (leaf?_makeDir h₂).trans h₁
        · exact h₁
    · rfl

/-- **Making directories changes no leaf.** -/
theorem leaf?_makeDirs (path : String) : (d.makeDirs path).1.leaf? = d.leaf? := by
  unfold makeDirs
  split
  · rfl
  · exact leaf?_makeDirsFrom _ _

/-- A path without two points that passes no link. -/
structure Straight (d : Disk) (path : String) : Prop where
  dots : ".." ∉ Path.pieces path
  links : ∀ ns, ns <+: Path.names path → ∀ target, d.leaf? ns ≠ some (.link target)

/-- It is enough to look at the starts of the path. -/
theorem straight_iff {path : String} : d.Straight path ↔ ".." ∉ Path.pieces path ∧
    ∀ n < (Path.names path).length + 1,
      (d.leaf? ((Path.names path).take n)).all (fun node => !node.isLink) = true := by
  constructor
  · rintro ⟨hdots, hlinks⟩
    refine ⟨hdots, fun n _ => ?_⟩
    cases hl : d.leaf? ((Path.names path).take n) with
    | none => rfl
    | some node =>
      cases node with
      | link target => exact absurd hl (hlinks _ (List.take_prefix n _) target)
      | file | dir => rfl
  · rintro ⟨hdots, hlinks⟩
    refine ⟨hdots, fun ns hns target hl => ?_⟩
    have hnone := hlinks ns.length (Nat.lt_succ_of_le hns.length_le)
    rw [← List.prefix_iff_eq_take.1 hns, hl] at hnone
    cases hnone

instance (d : Disk) (path : String) : Decidable (d.Straight path) :=
  decidable_of_iff _ straight_iff.symm

theorem Straight.congr {path : String} (h : d.Straight path) (hl : d'.leaf? = d.leaf?) :
    d'.Straight path := ⟨h.dots, by rw [hl]; exact h.links⟩

theorem filter_idle {name : String} {rest : List String} (hi : Path.isIdle name = true) :
    (name :: rest).filter (fun n => !Path.isIdle n) = rest.filter fun n => !Path.isIdle n := by
  rw [List.filter_cons, hi]
  rfl

theorem filter_proper {name : String} {here rest : List String} (hi : ¬Path.isIdle name = true) :
    here ++ (name :: rest).filter (fun n => !Path.isIdle n) =
      here ++ [name] ++ rest.filter fun n => !Path.isIdle n := by
  rw [List.filter_cons]
  simp [hi]

/-- No link stands on the way from `here` along some names. -/
def Clear (d : Disk) (here names : List String) : Prop :=
  ∀ ns, ns <+: here ++ names.filter (fun n => !Path.isIdle n) →
    ∀ target, d.leaf? ns ≠ some (.link target)

theorem Clear.of_idle {here rest : List String} {name : String} (h : d.Clear here (name :: rest))
    (hi : Path.isIdle name = true) : d.Clear here rest := by
  unfold Clear at h
  rwa [filter_idle hi] at h

theorem Clear.of_proper {here rest : List String} {name : String} (h : d.Clear here (name :: rest))
    (hi : ¬Path.isIdle name = true) : d.Clear (here ++ [name]) rest := by
  unfold Clear at h
  rwa [filter_proper hi] at h

theorem Clear.not_link {here rest : List String} {name target : String}
    {entries : List (String × Node)} (h : d.Clear here (name :: rest))
    (hi : ¬Path.isIdle name = true) (hd : d.get? here = some (.dir entries)) :
    KeyMap.lookup name entries ≠ some (.link target) := by
  intro hl
  refine h (here ++ [name]) ?_ target ?_
  · rw [filter_proper hi]
    exact List.prefix_append _ _
  · rw [leaf?_eq, get?_snoc hd, hl]
    rfl

section Follow

variable {follow follow' : List String → List String → Except Fault Place}

theorem names_of_walkFrom {aim : Aim} {here names : List String} {p : Place}
    (h : d.walkFrom aim follow here names = .ok p) (hdots : ".." ∉ names)
    (hlinks : d.Clear here names) :
    p.names = here ++ names.filter (fun n => !Path.isIdle n) := by
  fun_induction Disk.walkFrom d aim follow here names with
  | case1 here => cases h; simp
  | case2 | case3 | case4 | case7 | case8 | case10 => cases h
  | case5 here name rest entries hd hi ih =>
    rw [filter_idle hi]
    exact ih h (fun hm => hdots (List.mem_cons_of_mem _ hm)) (hlinks.of_idle hi)
  | case6 here rest => exact absurd List.mem_cons_self hdots
  | case9 here name rest entries hd hi _ _ _ hl hr =>
    cases h
    have hrest : rest.filter (fun n => !Path.isIdle n) = [] := by
      rw [List.filter_eq_nil_iff]
      intro n hn
      have := List.all_eq_true.1 hr n hn
      simp [Path.isIdle, this]
    rw [filter_proper hi, hrest, List.append_nil]
  | case11 here name rest entries hd hi _ _ _ target hl =>
    exact absurd hl (hlinks.not_link hi hd)
  | case12 here name rest entries hd hi _ _ _ target hl =>
    exact absurd hl (hlinks.not_link hi hd)
  | case13 here name rest entries hd hi _ _ _ x hl _ ih =>
    rw [filter_proper hi]
    exact ih h (fun hm => hdots (List.mem_cons_of_mem _ hm)) (hlinks.of_proper hi)

theorem Straight.names_eq {path : String} (hs : d.Straight path) {aim : Aim} {p : Place}
    (h : d.resolve aim path = .ok p) : p.names = Path.names path := by
  obtain ⟨follow, hf, -⟩ := d.exists_walkFrom aim maxLinks
  have hw := walk_of_resolve h
  rw [hf] at hw
  exact names_of_walkFrom hw hs.dots fun ns hns => hs.links ns hns

end Follow

/-! ## Writing files -/

theorem leaf?_write {path : String} {b : Body} (h : d.write path b = .ok d') (ns : List String) :
    d'.leaf? ns = d.leaf? ns ∨
      (d'.leaf? ns = some (.file b) ∧ (d.Straight path → ns = Path.names path)) := by
  unfold write at h
  cases hp : d.resolve .file path with
  | error f => rw [hp] at h; cases h
  | ok p =>
    have hnode := resolve_node hp
    have hput : d.putFile p.names b = d' ∧ ∀ y, p.node = some y → y.Bare := by
      rw [hp] at h
      obtain ⟨names, node⟩ := p
      cases node with
      | none => exact ⟨Except.ok.inj h, by simp⟩
      | some x =>
        cases x with
        | dir entries => cases h
        | file b' => exact ⟨Except.ok.inj h, fun y hy => by cases hy; exact Node.bare_file b'⟩
        | link target =>
          exact ⟨Except.ok.inj h, fun y hy => by cases hy; exact Node.bare_link target⟩
    obtain ⟨rfl, hbare⟩ := hput
    rw [hnode] at hbare
    by_cases hn : ns = p.names
    · subst hn
      rcases Node.leaf?_putIn_self (.file b) p.names d.entries with h' | h'
      · exact .inr ⟨h', fun hs => hs.names_eq hp⟩
      · exact .inl h'
    · exact .inl (leaf?_put_of_ne (.file b) (Node.bare_file b) hbare hn)

/-- **Writing a file changes at most one leaf**: under a straight path, that of its names. -/
theorem leaf?_writeUnder (d : Disk) (path : String) (b : Body) (ns : List String) :
    (d.writeUnder path b).1.leaf? ns = d.leaf? ns ∨
      ((d.writeUnder path b).1.leaf? ns = some (.file b) ∧
        (d.Straight path → ns = Path.names path)) := by
  have hl := leaf?_makeDirs (d := d) (Path.parent path)
  unfold writeUnder
  split
  · next h => rw [h] at hl; exact .inl (congrFun hl ns)
  · next h =>
    rw [h] at hl
    split
    · next h₂ =>
      rw [← hl]
      rcases leaf?_write h₂ ns with h' | ⟨h', hs⟩
      · exact .inl h'
      · exact .inr ⟨h', fun hd => hs (hd.congr hl)⟩
    · exact .inl (congrFun hl ns)

theorem Straight.writeUnder {q : String} (hq : d.Straight q) (path : String) (b : Body) :
    (d.writeUnder path b).1.Straight q where
  dots := hq.dots
  links ns hns target := by
    rcases leaf?_writeUnder d path b ns with h | ⟨h, -⟩
    · rw [h]; exact hq.links ns hns target
    · rw [h]; simp

/-! ## Entries -/

/-- There is a file with an entry. -/
def HasEntry (d : Disk) (e : Entry) : Prop := ∃ ns, d.leaf? ns = some (.file (.entry e))

theorem hasEntry_of_read {path : String} {e : Entry} (h : d.read path = .ok (.entry e)) :
    d.HasEntry e := leaf?_of_read h

/-- **The entries after a write** were there before, or were written. -/
theorem hasEntry_writeUnder {path : String} {b : Body} {e : Entry}
    (h : (d.writeUnder path b).1.HasEntry e) : d.HasEntry e ∨ b = .entry e := by
  obtain ⟨ns, hns⟩ := h
  rcases leaf?_writeUnder d path b ns with h' | ⟨h', -⟩
  · exact .inl ⟨ns, h' ▸ hns⟩
  · rw [hns] at h'
    cases h'
    exact .inr rfl

theorem not_hasEntry_empty (e : Entry) : ¬empty.HasEntry e := by
  rintro ⟨ns, h⟩
  cases ns <;> cases h

/-! ## Reading -/

theorem exists_dir_of_get? {here rest : List String} {n : String} {x : Node}
    (h : d.get? (here ++ n :: rest) = some x) : ∃ entries, d.get? here = some (.dir entries) := by
  rw [get?_append] at h
  cases hd : d.get? here with
  | none => rw [hd] at h; cases h
  | some y =>
    cases y with
    | dir entries => exact ⟨entries, rfl⟩
    | file b => rw [hd] at h; cases h
    | link target => rw [hd] at h; cases h

section Follow

variable {follow follow' : List String → List String → Except Fault Place}

theorem exists_dir_of_walkFrom {b : Body} {here names ns : List String}
    {entries : List (String × Node)}
    (hf : ∀ here names p, follow here names = .ok p → p.node = d.get? p.names)
    (h : d.walkFrom .node follow here names = .ok ⟨ns, some (.file b)⟩) (hdots : ".." ∉ names)
    (hlinks : d.Clear here names) (hd : d.get? here = some (.dir entries))
    (hfile : d'.get? ns = some (.file b)) : ∃ entries', d'.get? here = some (.dir entries') := by
  have hns := names_of_walkFrom h hdots hlinks
  have hget := walkFrom_node hf h
  dsimp only at hns hget
  cases hr : names.filter (fun n => !Path.isIdle n) with
  | nil =>
    rw [hr, List.append_nil] at hns
    rw [hns, hd] at hget
    cases hget
  | cons n rest =>
    rw [hns, hr] at hfile
    exact exists_dir_of_get? hfile

variable (d' follow') in
/-- A walk to a file leads to it also on another disk that has the file there, and no link on the
way. -/
theorem walkFrom_of_walkFrom {b : Body} {here names ns : List String}
    (hf : ∀ here names p, follow here names = .ok p → p.node = d.get? p.names)
    (h : d.walkFrom .node follow here names = .ok ⟨ns, some (.file b)⟩) (hdots : ".." ∉ names)
    (hlinks : d.Clear here names) (hlinks' : d'.Clear here names)
    (hfile : d'.get? ns = some (.file b)) :
    d'.walkFrom .node follow' here names = .ok ⟨ns, some (.file b)⟩ := by
  fun_induction Disk.walkFrom d .node follow here names with
  | case1 here =>
    obtain ⟨rfl, -⟩ := Place.mk.inj (Except.ok.inj h)
    rw [walkFrom, hfile]
  | case2 | case3 | case4 | case7 | case8 | case9 | case10 | case11 => cases h
  | case5 here name rest entries hd hi ih =>
    obtain ⟨entries', hd'⟩ := exists_dir_of_walkFrom hf h
      (fun hm => hdots (List.mem_cons_of_mem _ hm)) (hlinks.of_idle hi) hd hfile
    rw [walkFrom_idle hd' hi]
    exact ih h (fun hm => hdots (List.mem_cons_of_mem _ hm)) (hlinks.of_idle hi)
      (hlinks'.of_idle hi)
  | case6 here rest => exact absurd List.mem_cons_self hdots
  | case12 here name rest entries hd hi _ _ _ target hl => exact absurd hl (hlinks.not_link hi hd)
  | case13 here name rest entries hd hi hdd haim hlen x hl hx ih =>
    have hrest : ".." ∉ rest := fun hm => hdots (List.mem_cons_of_mem _ hm)
    have hns := names_of_walkFrom h hrest (hlinks.of_proper hi)
    dsimp only at hns
    have hfile' : d'.get? (here ++ name :: rest.filter fun n => !Path.isIdle n) =
        some (.file b) := by
      rw [← hfile, hns, List.append_assoc]
      rfl
    obtain ⟨entries', hd'⟩ := exists_dir_of_get? hfile'
    have hih := ih h hrest (hlinks.of_proper hi) (hlinks'.of_proper hi)
    cases hl' : KeyMap.lookup name entries' with
    | none =>
      rw [hns, get?_append, get?_snoc hd', hl'] at hfile
      cases hfile
    | some y =>
      rw [walkFrom_name hd' hi hdd haim hlen ?_ hl']
      · exact hih
      · rintro target rfl
        exact absurd hl' (hlinks'.not_link hi hd')

end Follow

/-- What straight paths lead to is determined by the leaves at their names. -/
theorem Straight.read_eq_ok {q : String} {b : Body} (hq : d.Straight q) (hq' : d'.Straight q)
    (hl : d'.leaf? (Path.names q) = d.leaf? (Path.names q)) (h : d.read q = .ok b) :
    d'.read q = .ok b := by
  obtain ⟨ns, hp⟩ := resolve_of_read h
  have hns := hq.names_eq hp
  have hw := walk_of_resolve hp
  dsimp only at hns
  have hget : d.get? ns = some (.file b) := (resolve_node hp).symm
  have hget' : d'.get? ns = some (.file b) := by
    apply get?_of_leaf?
    rw [hns, hl, ← hns, leaf?_eq, hget]
    rfl
  obtain ⟨follow, hf, hnode⟩ := d.exists_walkFrom .node maxLinks
  obtain ⟨follow', hf', -⟩ := d'.exists_walkFrom .node maxLinks
  rw [hf] at hw
  have hw' := walkFrom_of_walkFrom d' follow' hnode hw hq.dots hq.links
    hq'.links hget'
  rw [← hf'] at hw'
  unfold read node?
  rw [resolve_of_walk hp hw']
  rfl

/-- **Writing under a straight path leaves the other straight paths.** -/
theorem read_writeUnder_of_ne {p q : String} (hp : d.Straight p) (hq : d.Straight q)
    (hne : Path.names q ≠ Path.names p) (b : Body) :
    ((d.writeUnder p b).1.read q).toOption = (d.read q).toOption := by
  have hq' := hq.writeUnder p b
  have hl : (d.writeUnder p b).1.leaf? (Path.names q) = d.leaf? (Path.names q) := by
    rcases leaf?_writeUnder d p b (Path.names q) with h | ⟨-, h⟩
    · exact h
    · exact absurd (h hp) hne
  cases h : d.read q with
  | ok c => rw [hq.read_eq_ok hq' hl h]
  | error f =>
    cases h' : (d.writeUnder p b).1.read q with
    | ok c =>
      rw [hq'.read_eq_ok hq hl.symm h'] at h
      cases h
    | error f' => rfl

end Disk

end CompileCache
