import CompileCache.Proofs.Disk.Leaves
import CompileCache.Proofs.Disk.Paths

/-!
# Growth — where paths lead while files are written

* `Disk.Grows`: a disk has the directories and the links of another one; `Disk.grows_writeUnder`:
  writing a file takes none of them.
* `Disk.Arrives`: a path leads to a file. **`Disk.Arrives.grow`**: it leads there as long as the
  disk grows and a file stays there.
* **`Disk.arrives_writeUnder`**: a file that was written is where its path leads, and nothing else
  changed.
-/

namespace CompileCache

namespace Node

/-! ## Directories -/

theorem get?_nil (x : Node) : x.get? [] = some x := by cases x <;> rfl

theorem exists_dir_of_get? {x : Node} {ns : List String} {sub : List (String × Node)}
    (h : x.get? ns = some (.dir sub)) : ∃ entries, x = .dir entries := by
  cases ns with
  | nil => rw [get?_nil] at h; exact ⟨sub, Option.some.inj h⟩
  | cons n ns => cases x <;> first | cases h | exact ⟨_, rfl⟩

theorem exists_dir_putIn (x : Node) {ns ms : List String} {entries sub : List (String × Node)}
    (hv : ∀ l, (Node.dir entries).get? ns ≠ some (.dir l))
    (hd : (Node.dir entries).get? ms = some (.dir sub)) :
    ∃ sub', (Node.dir (putIn x ns entries)).get? ms = some (.dir sub') := by
  fun_induction Node.putIn x ns entries generalizing ms with
  | case1 => exact ⟨_, hd⟩
  | case2 n entries hn =>
    cases ms with
    | nil => exact ⟨_, rfl⟩
    | cons m ms =>
      rw [get?_cons] at hd ⊢
      rw [KeyMap.lookup_insertSorted]
      by_cases hm : m = n
      · subst hm
        obtain ⟨y, hy, hsub⟩ := Option.bind_eq_some_iff.1 hd
        obtain ⟨l, rfl⟩ := exists_dir_of_get? hsub
        exact absurd (by rw [get?_cons, hy, Option.bind_some, get?_nil]) (hv l)
      · rw [if_neg hm]
        exact ⟨sub, hd⟩
  | case3 => exact ⟨_, hd⟩
  | case4 n ns entries _ sub' hs hn ih =>
    cases ms with
    | nil => exact ⟨_, rfl⟩
    | cons m ms =>
      rw [get?_cons] at hd ⊢
      rw [KeyMap.lookup_insertSorted]
      by_cases hm : m = n
      · subst hm
        rw [hs, Option.bind_some] at hd
        rw [if_pos rfl, Option.bind_some]
        refine ih (fun l hl => hv l ?_) hd
        rw [get?_cons, hs]
        exact hl
      · rw [if_neg hm]
        exact ⟨sub, hd⟩
  | case5 => exact ⟨_, hd⟩
  | case6 => exact ⟨_, hd⟩

theorem Tidy.isName_of_lookup {entries : List (String × Node)} (h : Tidy (.dir entries))
    {n : String} {x : Node} (hx : KeyMap.lookup n entries = some x) : isName n = true := by
  cases h with
  | dir sorted names _ => exact names (n, x) ((KeyMap.lookup_eq_some_iff sorted).1 hx)

theorem Tidy.of_get? {x y : Node} (h : Tidy x) {ns : List String} (hy : x.get? ns = some y) :
    Tidy y := by
  induction ns generalizing x with
  | nil => rw [get?_nil] at hy; cases hy; exact h
  | cons n ns ih =>
    cases x with
    | file b => cases hy
    | link target => cases hy
    | dir entries =>
      rw [get?_cons] at hy
      obtain ⟨z, hz, hzy⟩ := Option.bind_eq_some_iff.1 hy
      exact ih (h.of_lookup hz) hzy

theorem get?_putIn_self (x : Node) {here : List String} {n : String}
    {entries sub : List (String × Node)} (ht : Tidy (.dir entries)) (hn : isName n = true)
    (hd : (Node.dir entries).get? here = some (.dir sub)) :
    (Node.dir (putIn x (here ++ [n]) entries)).get? (here ++ [n]) = some x := by
  induction here generalizing entries with
  | nil =>
    rw [List.nil_append, putIn, if_pos hn, get?_cons, KeyMap.lookup_insertSorted, if_pos rfl]
    exact get?_nil x
  | cons m here ih =>
    rw [get?_cons] at hd
    obtain ⟨y, hy, hsub⟩ := Option.bind_eq_some_iff.1 hd
    obtain ⟨l, rfl⟩ := exists_dir_of_get? hsub
    have hput : putIn x (m :: (here ++ [n])) entries =
        KeyMap.insertSorted m (.dir (putIn x (here ++ [n]) l)) entries := by
      rw [putIn, hy]
      · exact if_pos (ht.isName_of_lookup hy)
      · simp
    rw [List.cons_append, hput, get?_cons, KeyMap.lookup_insertSorted, if_pos rfl]
    exact ih (ht.of_lookup hy) hsub

end Node

namespace Disk

variable {d d' d'' : Disk}

/-! ## Growing disks -/

/-- A disk has the directories and the links of another one. -/
structure Grows (d d' : Disk) : Prop where
  dirs : ∀ {ns l}, d.get? ns = some (.dir l) → ∃ l', d'.get? ns = some (.dir l')
  links : ∀ {ns target}, d.get? ns = some (.link target) → d'.get? ns = some (.link target)

theorem Grows.refl (d : Disk) : d.Grows d := ⟨fun h => ⟨_, h⟩, fun h => h⟩

theorem Grows.trans (h : d.Grows d') (h' : d'.Grows d'') : d.Grows d'' where
  dirs hd := by
    obtain ⟨l, hl⟩ := h.dirs hd
    exact h'.dirs hl
  links hd := h'.links (h.links hd)

theorem leaf?_of_get? {ns : List String} {x : Node} (h : d.get? ns = some x)
    (hx : x.isDir = false) : d.leaf? ns = some x := by
  rw [leaf?_eq, h, Option.filter_some, hx]
  rfl

theorem grows_makeDir {path : String} (h : d.makeDir path = .ok d') : d.Grows d' where
  dirs hd := by
    unfold makeDir at h
    cases hv : d.vacant path with
    | error f => rw [hv] at h; cases h
    | ok names =>
      rw [hv] at h
      cases h
      refine Node.exists_dir_putIn _ (fun l hl => ?_) hd
      exact absurd ((get?_of_vacant hv).symm.trans hl) nofun
  links hl := get?_of_leaf? (by rw [leaf?_makeDir h, leaf?_of_get? hl rfl])

theorem grows_makeDirsFrom (d : Disk) (path : String) (above : List String) :
    d.Grows (d.makeDirsFrom path above).1 := by
  induction above generalizing path with
  | nil =>
    unfold makeDirsFrom
    split
    · next h => exact grows_makeDir h
    · exact .refl d
  | cons name above ih =>
    have h₁ := ih ("/" ++ "/".intercalate (name :: above).reverse)
    unfold makeDirsFrom
    split
    · next h => exact grows_makeDir h
    · split
      · next h => rw [h] at h₁; exact h₁
      · next h =>
        rw [h] at h₁
        split
        · next h₂ => exact h₁.trans (grows_makeDir h₂)
        · exact h₁
    · exact .refl d

theorem grows_makeDirs (d : Disk) (path : String) : d.Grows (d.makeDirs path).1 := by
  unfold makeDirs
  split
  · exact .refl d
  · exact grows_makeDirsFrom ..

/-! ## Places for files -/

/-- A way is fit for a new file: its last name is proper, and what it is in is a directory. -/
def Fit (d : Disk) (ns : List String) : Prop :=
  ∃ here n l, ns = here ++ [n] ∧ d.get? here = some (.dir l) ∧ Node.isName n = true

theorem fit_of_get? {ns : List String} {x : Node} (h : d.get? ns = some x)
    (hx : x.isDir = false) : d.Fit ns := by
  rcases List.eq_nil_or_concat ns with rfl | ⟨here, n, rfl⟩
  · cases h; cases hx
  · rw [List.concat_eq_append] at h ⊢
    obtain ⟨l, hl⟩ := exists_dir_of_get? h
    refine ⟨here, n, l, rfl, hl, ?_⟩
    rw [get?_snoc hl] at h
    exact (d.tidy.of_get? hl).isName_of_lookup h

theorem exists_dir_dropLast {ns : List String} {l : List (String × Node)}
    (h : d.get? ns = some (.dir l)) : ∃ l', d.get? ns.dropLast = some (.dir l') := by
  rcases List.eq_nil_or_concat ns with rfl | ⟨here, n, rfl⟩
  · exact ⟨l, h⟩
  · rw [List.concat_eq_append] at h ⊢
    rw [List.dropLast_concat]
    exact exists_dir_of_get? h

section Follow

variable {follow follow' : List String → List String → Except Fault Place}

theorem fit_of_walkFrom {aim : Aim} {here names ns : List String}
    (hf : ∀ here names ns, (∃ x, d.get? here = some x) → (∀ n ∈ names, '/' ∉ n.toList) →
      follow here names = .ok ⟨ns, none⟩ → d.Fit ns)
    (hh : ∃ x, d.get? here = some x) (hn : ∀ n ∈ names, '/' ∉ n.toList)
    (h : d.walkFrom aim follow here names = .ok ⟨ns, none⟩) : d.Fit ns := by
  fun_induction Disk.walkFrom d aim follow here names with
  | case1 here =>
    obtain ⟨x, hx⟩ := hh
    cases (Place.mk.inj (Except.ok.inj h)).2.symm.trans hx
  | case2 | case3 | case4 | case7 | case8 | case10 | case11 => cases h
  | case5 here name rest entries hd _ ih =>
    exact ih hh (fun n hm => hn n (List.mem_cons_of_mem _ hm)) h
  | case6 here rest entries hd _ ih =>
    obtain ⟨l, hl⟩ := exists_dir_dropLast hd
    exact ih ⟨_, hl⟩ (fun n hm => hn n (List.mem_cons_of_mem _ hm)) h
  | case9 here name rest entries hd hi hdd _ _ hl _ =>
    cases h
    refine ⟨here, name, entries, rfl, hd, ?_⟩
    have hslash := hn name List.mem_cons_self
    simp_all [Node.isName, Path.isIdle]
  | case12 here name rest entries hd _ _ _ _ target _ _ =>
    refine hf _ _ _ ?_ (fun n hm => ?_) h
    · split
      · exact ⟨_, rfl⟩
      · exact ⟨_, hd⟩
    · rcases List.mem_append.1 hm with hm | hm
      · exact Path.slash_not_mem_of_mem_pieces hm
      · exact hn n (List.mem_cons_of_mem _ hm)
  | case13 here name rest entries hd _ _ _ _ x _ hl ih =>
    exact ih ⟨x, (get?_snoc hd name).trans hl⟩ (fun n hm => hn n (List.mem_cons_of_mem _ hm)) h

/-- A walk to a file, or to a place for one, leads to the file that is there on a larger disk. -/
theorem walkFrom_grow {aim : Aim} {b : Body} {here names ns : List String} {x : Option Node}
    (hg : d.Grows d') (ha : aim = .file ∨ aim = .node ∧ x ≠ none)
    (hfile : d'.get? ns = some (.file b))
    (hf : ∀ here names, follow here names = .ok ⟨ns, x⟩ →
      follow' here names = .ok ⟨ns, some (.file b)⟩)
    (h : d.walkFrom aim follow here names = .ok ⟨ns, x⟩) :
    d'.walkFrom .node follow' here names = .ok ⟨ns, some (.file b)⟩ := by
  have hentry : aim ≠ .entry := by rcases ha with rfl | ⟨rfl, -⟩ <;> decide
  fun_induction Disk.walkFrom d aim follow here names with
  | case1 here =>
    obtain ⟨rfl, -⟩ := Place.mk.inj (Except.ok.inj h)
    rw [walkFrom, hfile]
  | case2 | case3 | case4 | case7 | case8 | case10 => cases h
  | case5 here name rest entries hd hi ih =>
    obtain ⟨entries', hd'⟩ := hg.dirs hd
    rw [walkFrom_idle hd' hi]
    exact ih h
  | case6 here rest entries hd hi ih =>
    obtain ⟨entries', hd'⟩ := hg.dirs hd
    rw [walkFrom_up hd']
    exact ih h
  | case9 here name rest entries hd hi hdd haim hlen hl hr =>
    obtain ⟨rfl, rfl⟩ := Place.mk.inj (Except.ok.inj h)
    obtain ⟨entries', hd'⟩ := hg.dirs hd
    -- a new file can only be at the very end of the path
    have hrest : rest = [] := by
      rcases ha with rfl | ⟨-, hx⟩
      · cases rest with
        | nil => rfl
        | cons n rest => exact absurd ⟨rfl, List.cons_ne_nil n rest, hr⟩ haim
      · exact absurd rfl hx
    subst hrest
    have hl' : KeyMap.lookup name entries' = some (.file b) := by
      rw [← get?_snoc hd', hfile]
    rw [walkFrom_name hd' hi hdd (by simp) hlen (by simp) hl', walkFrom, hfile]
  | case11 here name rest entries hd hi hdd haim hlen target hl hr => exact absurd hr.2 hentry
  | case12 here name rest entries hd hi hdd haim hlen target hl hr =>
    obtain ⟨entries', hd'⟩ := hg.dirs hd
    have hl' : KeyMap.lookup name entries' = some (.link target) := by
      rw [← get?_snoc hd']
      exact hg.links ((get?_snoc hd name).trans hl)
    rw [walkFrom_link hd' hi hdd (by simp) hlen hl', if_neg (by simp)]
    exact hf _ _ h
  | case13 here name rest entries hd hi hdd haim hlen y hy hl ih =>
    obtain ⟨entries', hd'⟩ := hg.dirs hd
    have hget : d.get? (here ++ [name]) = some y := (get?_snoc hd name).trans hl
    have hthere : ∃ y', d'.get? (here ++ [name]) = some y' ∧
        ∀ target, y' = .link target → False := by
      cases y with
      | link target => exact (hy target rfl).elim
      | dir l =>
        obtain ⟨l', hl'⟩ := hg.dirs hget
        exact ⟨_, hl', by simp⟩
      | file c =>
        -- behind a file there is nothing to walk to
        cases rest with
        | nil =>
          rw [walkFrom] at h
          obtain ⟨rfl, -⟩ := Place.mk.inj (Except.ok.inj h)
          exact ⟨_, hfile, by simp⟩
        | cons n rest =>
          rw [walkFrom, hget] at h
          cases h
    obtain ⟨y', hget', hy'⟩ := hthere
    rw [walkFrom_name hd' hi hdd (by simp) hlen hy' ((get?_snoc hd' name).symm.trans hget')]
    exact ih h

theorem not_link_of_walkFrom {aim : Aim} {here names ns : List String} {target : String}
    (ha : aim ≠ .entry)
    (hf : ∀ here names ns target, (∀ t, d.get? here ≠ some (.link t)) →
      follow here names ≠ .ok ⟨ns, some (.link target)⟩)
    (hh : ∀ t, d.get? here ≠ some (.link t)) :
    d.walkFrom aim follow here names ≠ .ok ⟨ns, some (.link target)⟩ := by
  intro h
  fun_induction Disk.walkFrom d aim follow here names with
  | case1 here => exact hh _ (Place.mk.inj (Except.ok.inj h)).2
  | case2 | case3 | case4 | case7 | case8 | case9 | case10 => cases h
  | case5 _ _ _ _ _ _ ih => exact ih hh h
  | case6 here rest entries hd _ ih =>
    refine ih (fun t ht => ?_) h
    obtain ⟨l, hl⟩ := exists_dir_dropLast hd
    cases hl.symm.trans ht
  | case11 _ _ _ _ _ _ _ _ _ _ _ hr => exact ha hr.2
  | case12 here name rest entries hd _ _ _ _ t _ _ =>
    refine hf _ _ _ _ (fun t ht => ?_) h
    split at ht
    · cases ht
    · cases hd.symm.trans ht
  | case13 here name rest entries hd _ _ _ _ x hx hl ih =>
    refine ih (fun t ht => hx t ?_) h
    exact Option.some.inj (hl.symm.trans ((get?_snoc hd name).symm.trans ht))

end Follow

theorem fit_of_walk {aim : Aim} {budget : Nat} {here names ns : List String}
    (hh : ∃ x, d.get? here = some x) (hn : ∀ n ∈ names, '/' ∉ n.toList)
    (h : d.walk aim budget here names = .ok ⟨ns, none⟩) : d.Fit ns := by
  induction budget generalizing here names ns with
  | zero => exact fit_of_walkFrom (fun _ _ _ _ _ hf => by cases hf) hh hn h
  | succ budget ih => exact fit_of_walkFrom (fun _ _ _ hh hn hf => ih hh hn hf) hh hn h

theorem walk_grow {aim : Aim} {b : Body} {budget : Nat} {here names ns : List String}
    {x : Option Node} (hg : d.Grows d') (ha : aim = .file ∨ aim = .node ∧ x ≠ none)
    (hfile : d'.get? ns = some (.file b)) (h : d.walk aim budget here names = .ok ⟨ns, x⟩) :
    d'.walk .node budget here names = .ok ⟨ns, some (.file b)⟩ := by
  induction budget generalizing here names with
  | zero => exact walkFrom_grow hg ha hfile (fun _ _ hf => by cases hf) h
  | succ budget ih => exact walkFrom_grow hg ha hfile (fun _ _ hf => ih hf) h

theorem not_link_of_walk {aim : Aim} {budget : Nat} {here names ns : List String} {target : String}
    (ha : aim ≠ .entry) (hh : ∀ t, d.get? here ≠ some (.link t)) :
    d.walk aim budget here names ≠ .ok ⟨ns, some (.link target)⟩ := by
  induction budget generalizing here names ns target with
  | zero => exact not_link_of_walkFrom ha (fun _ _ _ _ _ hf => by cases hf) hh
  | succ budget ih => exact not_link_of_walkFrom ha (fun _ _ _ _ hh => ih hh) hh

/-! ## Files that are written -/

/-- A path leads to a file with this content. -/
def Arrives (d : Disk) (path : String) (ns : List String) (b : Body) : Prop :=
  d.resolve .node path = .ok ⟨ns, some (.file b)⟩

theorem Arrives.get?_eq {path : String} {ns : List String} {b : Body} (h : d.Arrives path ns b) :
    d.get? ns = some (.file b) := (resolve_node h).symm

theorem Arrives.read_eq {path : String} {ns : List String} {b : Body} (h : d.Arrives path ns b) :
    d.read path = .ok b := by
  unfold read node?
  rw [h]
  rfl

theorem exists_arrives {path : String} {b : Body} (h : d.read path = .ok b) :
    ∃ ns, d.Arrives path ns b := resolve_of_read h

/-- **A path leads to the same file as before** as long as the disk grows and a file is there. -/
theorem Arrives.grow {path : String} {ns : List String} {b b' : Body} (h : d.Arrives path ns b)
    (hg : d.Grows d') (hb : d'.get? ns = some (.file b')) : d'.Arrives path ns b' := by
  have hw : d.walk .node maxLinks [] (Path.pieces path) = .ok ⟨ns, some (.file b)⟩ :=
    walk_of_resolve h
  exact resolve_of_walk h (walk_grow hg (.inr ⟨rfl, Option.some_ne_none _⟩) hb hw)

theorem exists_of_write {path : String} {b : Body} (h : d.write path b = .ok d') :
    ∃ ns x, d.resolve .file path = .ok ⟨ns, x⟩ ∧ d' = d.putFile ns b ∧ d.Fit ns ∧
      ∀ y, d.get? ns = some y → ∃ c, y = .file c := by
  unfold write at h
  cases hp : d.resolve .file path with
  | error f => rw [hp] at h; cases h
  | ok p =>
    obtain ⟨ns, x⟩ := p
    rw [hp] at h
    have hnode : x = d.get? ns := resolve_node hp
    have hw := walk_of_resolve hp
    cases x with
    | none =>
      refine ⟨ns, none, rfl, (Except.ok.inj h).symm, ?_,
        fun y hy => by rw [← hnode] at hy; cases hy⟩
      exact fit_of_walk ⟨_, rfl⟩ (fun _ => Path.slash_not_mem_of_mem_pieces) hw
    | some x =>
      cases x with
      | dir l => cases h
      | link target => exact absurd hw (not_link_of_walk (by decide) nofun)
      | file c =>
        refine ⟨ns, _, rfl, (Except.ok.inj h).symm, fit_of_get? hnode.symm rfl, fun y hy => ?_⟩
        rw [← hnode] at hy
        exact ⟨c, (Option.some.inj hy).symm⟩

theorem arrives_write {path : String} {b : Body} (h : d.write path b = .ok d') :
    d.Grows d' ∧ ∃ ns, d'.Arrives path ns b ∧ ∀ ms, ms ≠ ns → d'.leaf? ms = d.leaf? ms := by
  obtain ⟨ns, x, hp, rfl, ⟨here, n, l, rfl, hd, hn⟩, hfile⟩ := exists_of_write h
  have hother : ∀ ms, ms ≠ here ++ [n] →
      (d.putFile (here ++ [n]) b).leaf? ms = d.leaf? ms := by
    intro ms hne
    refine leaf?_put_of_ne (.file b) (Node.bare_file b) (fun y hy => ?_) hne
    obtain ⟨c, rfl⟩ := hfile y hy
    exact Node.bare_file c
  have hself : (d.putFile (here ++ [n]) b).get? (here ++ [n]) = some (.file b) :=
    Node.get?_putIn_self (.file b) d.tidy hn hd
  have hgrows : d.Grows (d.putFile (here ++ [n]) b) := by
    refine ⟨fun hdir => ?_, fun {ms target} hlink => ?_⟩
    · refine Node.exists_dir_putIn _ (fun l' hl' => ?_) hdir
      obtain ⟨c, hc⟩ := hfile _ hl'
      cases hc
    · have hne : ms ≠ here ++ [n] := by
        rintro rfl
        obtain ⟨c, hc⟩ := hfile _ hlink
        cases hc
      apply get?_of_leaf?
      rw [hother ms hne, leaf?_of_get? hlink rfl]
  exact ⟨hgrows, here ++ [n],
    resolve_of_walk hp (walk_grow hgrows (.inl rfl) hself (walk_of_resolve hp)), hother⟩

/-- **Writing a file takes no directory and no link.** -/
theorem grows_writeUnder (d : Disk) (path : String) (b : Body) :
    d.Grows (d.writeUnder path b).1 := by
  have h₁ := d.grows_makeDirs (Path.parent path)
  unfold writeUnder
  split
  · next h => rw [h] at h₁; exact h₁
  · next h =>
    rw [h] at h₁
    split
    · next h₂ => exact h₁.trans (arrives_write h₂).1
    · exact h₁

/-- **A file that was written is where its path leads**, and all other files are as before. -/
theorem arrives_writeUnder {path : String} {b : Body} (h : (d.writeUnder path b).2 = .ok ()) :
    ∃ ns, (d.writeUnder path b).1.Arrives path ns b ∧
      ∀ ms, ms ≠ ns → (d.writeUnder path b).1.leaf? ms = d.leaf? ms := by
  have hl := leaf?_makeDirs (d := d) (Path.parent path)
  unfold writeUnder at h ⊢
  split
  · next h₁ => rw [h₁] at h; cases h
  · next d₁ h₁ =>
    rw [h₁] at h hl
    dsimp only at h hl
    cases h₂ : d₁.write path b with
    | error f => rw [h₂] at h; cases h
    | ok d₂ =>
      obtain ⟨-, ns, hns, hother⟩ := arrives_write h₂
      exact ⟨ns, hns, fun ms hne => by rw [hother ms hne, hl]⟩

end Disk

end CompileCache
