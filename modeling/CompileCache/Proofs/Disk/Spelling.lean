import CompileCache.Proofs.Disk.Growth

/-!
# Spelling — paths that differ only in idle pieces

* `Disk.EndsInName`: what walks to files end in.
* **`Disk.Arrives.respell`**: another path with the same names leads to the same file.
* `Disk.Apart`: paths that lead to one file have the same names; **`Disk.apart_of_linkless`**: on a
  disk without links this holds of all paths without two points.
-/

namespace CompileCache.Disk

variable {d d' : Disk}

/-- A list of pieces that is empty or ends in a name. -/
def EndsInName (l : List String) : Prop := ∀ n ∈ l.getLast?, Path.isIdle n = false

theorem EndsInName.of_cons {n : String} {l : List String} (h : EndsInName (n :: l)) :
    EndsInName l := by
  cases l with
  | nil => nofun
  | cons m l => exact h

theorem EndsInName.of_append {l l' : List String} (h : EndsInName (l ++ l')) : EndsInName l' := by
  intro n hn
  refine h n ?_
  rw [List.getLast?_append, Option.mem_def.1 hn]
  rfl

theorem EndsInName.append {l l' : List String} (h : EndsInName l') (hl : l' = [] → EndsInName l) :
    EndsInName (l ++ l') := by
  cases l' with
  | nil => rw [List.append_nil]; exact hl rfl
  | cons m l' =>
    intro n hn
    rw [List.getLast?_append, List.getLast?_cons] at hn
    exact h n (by rw [List.getLast?_cons]; exact hn)

theorem EndsInName.eq_nil {l : List String} (h : EndsInName l)
    (hf : l.filter (fun n => !Path.isIdle n) = []) : l = [] := by
  cases hl : l.getLast? with
  | none => exact List.getLast?_eq_none_iff.1 hl
  | some n =>
    have hn := List.filter_eq_nil_iff.1 hf n (List.mem_of_getLast? hl)
    exact absurd (h n hl) (by simpa using hn)

theorem walkFrom_skip {aim : Aim} {follow : List String → List String → Except Fault Place}
    {here idle names : List String} {l : List (String × Node)} (hd : d.get? here = some (.dir l))
    (hi : ∀ n ∈ idle, Path.isIdle n = true) :
    d.walkFrom aim follow here (idle ++ names) = d.walkFrom aim follow here names := by
  induction idle with
  | nil => rfl
  | cons n idle ih =>
    rw [List.cons_append, walkFrom_idle hd (hi n List.mem_cons_self)]
    exact ih fun m hm => hi m (List.mem_cons_of_mem n hm)

section Follow

variable {follow : List String → List String → Except Fault Place}

theorem endsInName_of_walkFrom {here names ns : List String} {b : Body}
    (hf : ∀ here names, follow here names = .ok ⟨ns, some (.file b)⟩ → EndsInName names)
    (h : d.walkFrom .node follow here names = .ok ⟨ns, some (.file b)⟩) : EndsInName names := by
  fun_induction Disk.walkFrom d .node follow here names with
  | case1 => rintro n ⟨⟩
  | case2 | case3 | case4 | case7 | case8 | case9 | case10 | case11 => cases h
  | case5 here name rest entries hd hi ih =>
    cases rest with
    | nil =>
      rw [walkFrom, hd] at h
      cases h
    | cons m rest => exact ih h
  | case6 here rest entries hd hi ih =>
    cases rest with
    | nil => rintro n ⟨⟩; rfl
    | cons m rest => exact ih h
  | case12 here name rest entries hd hi _ _ _ target _ _ =>
    cases rest with
    | nil => rintro n ⟨⟩; exact Bool.eq_false_iff.2 hi
    | cons m rest => exact (hf _ _ h).of_append
  | case13 here name rest entries hd hi _ _ _ x _ _ ih =>
    cases rest with
    | nil => rintro n ⟨⟩; exact Bool.eq_false_iff.2 hi
    | cons m rest => exact ih h

/-- A walk to a file leads there too if idle pieces are put between its names or left out. -/
theorem walkFrom_respell {here names names' ns : List String} {b : Body}
    (he : ∀ here names, follow here names = .ok ⟨ns, some (.file b)⟩ → EndsInName names)
    (hf : ∀ here names names', follow here names = .ok ⟨ns, some (.file b)⟩ →
      names'.filter (fun n => !Path.isIdle n) = names.filter (fun n => !Path.isIdle n) →
      EndsInName names' → follow here names' = .ok ⟨ns, some (.file b)⟩)
    (h : d.walkFrom .node follow here names = .ok ⟨ns, some (.file b)⟩)
    (hn : names'.filter (fun n => !Path.isIdle n) = names.filter (fun n => !Path.isIdle n))
    (hl : EndsInName names') :
    d.walkFrom .node follow here names' = .ok ⟨ns, some (.file b)⟩ := by
  fun_induction Disk.walkFrom d .node follow here names generalizing names' with
  | case1 here =>
    rw [hl.eq_nil hn, walkFrom]
    exact h
  | case2 | case3 | case4 | case7 | case8 | case9 | case10 | case11 => cases h
  | case5 here name rest entries hd hi ih =>
    rw [filter_idle hi] at hn
    exact ih h hn hl
  | case6 here rest entries hd hi ih =>
    obtain ⟨idle, rest', rfl, hidle, -, hrest⟩ := List.filter_eq_cons_iff.1 hn
    rw [walkFrom_skip hd fun n hn => by simpa using hidle n hn, walkFrom_up hd]
    exact ih h hrest hl.of_append.of_cons
  | case12 here name rest entries hd hi hdd haim hlen target hl₁ hr =>
    rw [List.filter_cons_of_pos (by simpa using hi)] at hn
    obtain ⟨idle, rest', rfl, hidle, -, hrest⟩ := List.filter_eq_cons_iff.1 hn
    rw [walkFrom_skip hd fun n hn => by simpa using hidle n hn,
      walkFrom_link hd hi hdd (by simp) hlen hl₁, if_neg (by simp)]
    have hends := he _ _ h
    refine hf _ _ _ h (by rw [List.filter_append, List.filter_append, hrest]) ?_
    refine hl.of_append.of_cons.append fun hnil => ?_
    -- the other list ends in the target as well, since the file is at its end
    subst hnil
    rw [hends.of_append.eq_nil hrest.symm, List.append_nil] at hends
    exact hends
  | case13 here name rest entries hd hi hdd haim hlen x hx hl₁ ih =>
    rw [List.filter_cons_of_pos (by simpa using hi)] at hn
    obtain ⟨idle, rest', rfl, hidle, -, hrest⟩ := List.filter_eq_cons_iff.1 hn
    rw [walkFrom_skip hd fun n hn => by simpa using hidle n hn,
      walkFrom_name hd hi hdd (by simp) hlen hx hl₁]
    exact ih h hrest hl.of_append.of_cons

end Follow

theorem endsInName_of_walk {budget : Nat} {here names ns : List String} {b : Body}
    (h : d.walk .node budget here names = .ok ⟨ns, some (.file b)⟩) : EndsInName names := by
  induction budget generalizing here names with
  | zero => exact endsInName_of_walkFrom (fun _ _ hf => by cases hf) h
  | succ budget ih => exact endsInName_of_walkFrom (fun _ _ hf => ih hf) h

theorem walk_respell {budget : Nat} {here names names' ns : List String} {b : Body}
    (h : d.walk .node budget here names = .ok ⟨ns, some (.file b)⟩)
    (hn : names'.filter (fun n => !Path.isIdle n) = names.filter (fun n => !Path.isIdle n))
    (hl : EndsInName names') : d.walk .node budget here names' = .ok ⟨ns, some (.file b)⟩ := by
  induction budget generalizing here names names' with
  | zero =>
    exact walkFrom_respell (fun _ _ hf => by cases hf) (fun _ _ _ hf => by cases hf) h hn hl
  | succ budget ih =>
    exact walkFrom_respell (fun _ _ hf => endsInName_of_walk hf) (fun _ _ _ hf => ih hf) h hn hl

/-- **Another path with the same names leads to the same file.** -/
theorem Arrives.respell {p q : String} {ns : List String} {b : Body} (h : d.Arrives p ns b)
    (hn : Path.names q = Path.names p) (hl : EndsInName (Path.pieces q))
    (hq : q.utf8ByteSize < maxPath) : d.Arrives q ns b := by
  have hw := walk_respell (walk_of_resolve h) hn hl
  have hempty : q ≠ "" := by
    rintro rfl
    exact absurd (hl "" rfl) (by decide)
  have hzero : '\x00' ∉ q.toList := by
    rw [Path.mem_toList_iff_of_names (by decide) (by decide), hn,
      ← Path.mem_toList_iff_of_names (by decide) (by decide)]
    intro hp
    unfold Arrives resolve at h
    split at h
    · cases h
    · rw [if_pos (by simpa using hp)] at h
      cases h
  unfold Arrives resolve
  rw [if_neg hempty, if_neg (by simpa using hzero), if_neg (by omega), hw]

/-! ## Paths apart -/

/-- Two paths that lead to one file have the same names. -/
def Apart (d : Disk) (p q : String) : Prop :=
  ∀ ns b b', d.Arrives p ns b → d.Arrives q ns b' → Path.names p = Path.names q

/-- There are no links. -/
def Linkless (d : Disk) : Prop := ∀ ns target, d.leaf? ns ≠ some (.link target)

theorem linkless_empty : Linkless .empty := by
  intro ns target h
  cases ns <;> cases h

theorem Linkless.writeUnder (h : d.Linkless) (path : String) (b : Body) :
    (d.writeUnder path b).1.Linkless := by
  intro ns target
  rcases leaf?_writeUnder d path b ns with hl | ⟨hl, -⟩
  · rw [hl]; exact h ns target
  · rw [hl]; nofun

/-- **On a disk without links, paths without two points lead to files of their own.** -/
theorem apart_of_linkless (h : d.Linkless) {p q : String} (hp : ".." ∉ Path.pieces p)
    (hq : ".." ∉ Path.pieces q) : d.Apart p q := by
  have straight : ∀ {r ns b}, ".." ∉ Path.pieces r → d.Arrives r ns b → ns = Path.names r := by
    intro r ns b hr ha
    have hs : d.Straight r := ⟨hr, fun ms _ target => h ms target⟩
    exact hs.names_eq (show d.resolve .node r = .ok ⟨ns, some (.file b)⟩ from ha)
  intro ns b b' hpa hqa
  exact (straight hp hpa).symm.trans (straight hq hqa)

end CompileCache.Disk
