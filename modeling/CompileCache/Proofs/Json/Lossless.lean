import CompileCache.Json.Decode
import CompileCache.Proofs.Json.Layout

/-!
# Lossless — values that are written and read back

* `KeyMap.ofList_entries`: a map is made again from its entries.
* `Lossless`: a way of writing values that a reading undoes. Numbers of 32 and 64 bits, texts and
  truth values: `word32`, `word64`, `ofText`, `ofBool`. Composed: `Lossless.list`, `Lossless.map`,
  `Lossless.nullable`.
* `exists_record_of_nodup`: what an object gives for a record whose fields it names.
* **`Lossless.compact`**, **`Lossless.pretty`**: the text on one line and the text over several
  lines read back as the value that was written.
-/

namespace CompileCache

namespace KeyMap

variable {β : Type}

theorem get?_foldl_insert_of_pairwise {l : List (String × β)}
    (h : l.Pairwise fun a b => a.1 < b.1) (m : KeyMap β) (k : String) :
    (l.foldl (fun m e => m.insert e.1 e.2) m).get? k = (lookup k l).or (m.get? k) := by
  induction l generalizing m with
  | nil => rfl
  | cons e l ih =>
    obtain ⟨hlt, hl⟩ := List.pairwise_cons.1 h
    rw [List.foldl_cons, ih hl, get?_insert, lookup]
    by_cases hk : k = e.1
    · have hnone : lookup k l = none := by
        refine Option.eq_none_iff_forall_ne_some.2 fun v hv => ?_
        have hm := (lookup_eq_some_iff hl).1 hv
        exact ne_of_lt (hlt _ hm) hk.symm
      rw [if_pos hk, if_pos hk, hnone]
      rfl
    · rw [if_neg hk, if_neg hk]

theorem ofList_entries (m : KeyMap β) : ofList m.entries = m := by
  refine ext_get? fun k => ?_
  unfold ofList
  rw [get?_foldl_insert_of_pairwise m.sorted, get?_empty, Option.or_none]
  rfl

end KeyMap

namespace Json

variable {α : Type}

/-- A way of writing values that a reading undoes, whatever the value and wherever it stands. -/
structure Lossless (write : α → Json) (read? : Json → Option α) : Prop where
  legible : ∀ a depth, Legible .lenient depth (write a)
  read_write : ∀ a, read? (write a) = some a

theorem Legible.members {depth : Nat} {members : List (String × Json)}
    (h : ∀ m ∈ members, Legible .lenient (depth + 1) m.2) :
    Legible .lenient depth (.object members) := .object rfl nofun h

/-! ## Plain values -/

theorem word64 : Lossless (fun n : UInt64 => natural n.toNat) word64? where
  legible _ _ := .natural _
  read_write n := by simp [natural, word64?]

theorem word32 : Lossless (fun n : UInt32 => natural n.toNat) word32? where
  legible _ _ := .natural _
  read_write n := by
    have hn : n.toNat < UInt32.size := n.toNat_lt_size
    have hword : n.toNat.toUInt64.toNat = n.toNat :=
      UInt64.toNat_ofNat_of_lt' (Nat.lt_trans hn (by decide))
    rw [natural, word32?, if_pos (by rw [hword]; exact hn)]
    congr 1
    refine UInt32.toNat_inj.1 ?_
    rw [UInt64.toNat_toUInt32, hword, Nat.mod_eq_of_lt hn]

theorem ofText : Lossless text text? := ⟨fun s _ => .text s, fun _ => rfl⟩

theorem ofBool : Lossless bool bool? := ⟨fun b _ => .bool b, fun _ => rfl⟩

theorem exists_record_of_nodup {names : List String} {members : List (String × Json)}
    (hk : ∀ m ∈ members, m.1 ∈ names) (hn : (members.map (·.1)).Nodup) :
    ∃ r, record? names (object members) = some r ∧ r.positional = false ∧
      ∀ name, r.get? name = KeyMap.lookup name members := by
  have hknown : knownMembers names members = members :=
    List.filter_eq_self.2 fun m hm => List.contains_iff_mem.2 (hk m hm)
  refine ⟨⟨false, members⟩, ?_, rfl, fun _ => rfl⟩
  unfold record?
  dsimp only
  rw [hknown, if_pos hn]

theorem exists_record_of_sublist {names : List String} {members : List (String × Json)}
    (hn : names.Nodup) (h : (members.map (·.1)).Sublist names) :
    ∃ r, record? names (object members) = some r ∧ r.positional = false ∧
      ∀ name, r.get? name = KeyMap.lookup name members :=
  exists_record_of_nodup (fun _ hm => h.subset (List.mem_map_of_mem hm)) (hn.sublist h)

/-! ## Composed values -/

namespace Lossless

variable {write : α → Json} {read? : Json → Option α}

theorem list (h : Lossless write read?) :
    Lossless (fun l => array (l.map write)) (list? read?) where
  legible l depth := by
    refine .array rfl fun j hj => ?_
    obtain ⟨a, -, rfl⟩ := List.mem_map.1 hj
    exact h.legible a _
  read_write l := by
    rw [list?, List.mapM_map]
    induction l with
    | nil => rfl
    | cons a l ih => simp [ih, h.read_write]

theorem map (h : Lossless write read?) :
    Lossless (fun m : KeyMap α => object (m.mapValues fun _ => write).entries) (map? read?) where
  legible m depth := by
    refine .members fun e he => ?_
    obtain ⟨e, -, rfl⟩ := List.mem_map.1 he
    exact h.legible e.2 _
  read_write m := by
    have hmembers : (m.mapValues fun _ => write).entries.mapM (member? read?) = some m.entries := by
      change (m.entries.map fun e => (e.1, write e.2)).mapM (member? read?) = _
      rw [List.mapM_map]
      induction m.entries with
      | nil => rfl
      | cons e l ih => simp [ih, member?, h.read_write]
    rw [map?, hmembers, Option.map_some, KeyMap.ofList_entries]

theorem nullable (h : Lossless write read?) (hne : ∀ a, write a ≠ .null) :
    Lossless (ofOption write) (nullable? read?) where
  legible o depth := by
    cases o with
    | none => exact .null
    | some a => exact h.legible a depth
  read_write o := by
    cases o with
    | none => rfl
    | some a =>
      have hread : nullable? read? (write a) = (read? (write a)).map some := by
        cases hj : write a with
        | null => exact absurd hj (hne a)
        | _ => rfl
      rw [ofOption, hread, h.read_write, Option.map_some]

/-! ## Texts -/

/-- **A text on one line reads back as the value that was written.** -/
theorem compact (h : Lossless write read?) (a : α) :
    (lenient? (write a).compact).bind read? = some a := by
  rw [lenient?_compact (h.legible a 0), Option.bind_some, h.read_write]

/-- **A text over several lines reads back as the value that was written.** -/
theorem pretty (h : Lossless write read?) (a : α) :
    (lenient? (write a).pretty).bind read? = some a := by
  rw [lenient?_pretty (h.legible a 0), Option.bind_some, h.read_write]

theorem compact_inj (h : Lossless write read?) {a b : α}
    (hab : (write a).compact = (write b).compact) : a = b := by
  refine Option.some.inj ?_
  rw [← h.compact a, hab, h.compact b]

end Lossless

end Json

end CompileCache
