import CompileCache.Fingerprint
import CompileCache.Proofs.Json.Texts
import Mathlib.Algebra.Group.Nat.Defs

/-!
# Keys — what a key stands for

* `Fingerprint.framed_append_inj`, **`keyBytes_inj`**: the bytes of a key determine its parts, if
  the lengths of these fit eight bytes.
* **`EmitOptions.text_inj`**: the text of emit options determines them.
* `Fingerprint.Sized`, **`Fingerprint.ofText_eq_of_key_eq`**: under a faithful digest, two
  fingerprints of contents with one key are equal.
* **`Fingerprint.of_inj`**: equal fingerprints have the same content, options and module name.
-/

namespace CompileCache

/-! ## Bytes of texts -/

theorem toList_loop_eq (b : ByteArray) (i : Nat) (l : List UInt8) :
    ByteArray.toList.loop b i l = l.reverse ++ b.data.toList.drop i := by
  fun_induction ByteArray.toList.loop b i l with
  | case1 i l h ih =>
    have hi : i < b.data.toList.length := by simpa using h
    have hg : b.get! i = b.data.toList[i] := by simp [ByteArray.get!, getElem!_pos, h]
    rw [ih, List.drop_eq_getElem_cons hi, List.reverse_cons, hg]
    simp
  | case2 i l h =>
    have hi : b.data.toList.length ≤ i := by simpa using h
    rw [List.drop_eq_nil_of_le hi, List.append_nil]

theorem toList_eq_data (b : ByteArray) : b.toList = b.data.toList := by
  unfold ByteArray.toList
  rw [toList_loop_eq]
  rfl

theorem toUTF8_toList_inj {s t : String} (h : s.toUTF8.toList = t.toUTF8.toList) : s = t := by
  rw [toList_eq_data, toList_eq_data] at h
  exact String.toByteArray_inj.1 (ByteArray.ext (Array.toList_inj.1 h))

theorem length_toUTF8 (s : String) : s.toUTF8.toList.length = s.utf8ByteSize := by
  rw [toList_eq_data, Array.length_toList]
  rfl

namespace Fingerprint

/-! ## The bytes of a key -/

theorem length_lengthBytes (n : Nat) : (lengthBytes n).length = 8 := by simp [lengthBytes]

theorem mod_eq_of_bytes {n m k : Nat} (h : ∀ i < k, (n >>> (8 * i)) % 256 = (m >>> (8 * i)) % 256) :
    n % 256 ^ k = m % 256 ^ k := by
  induction k with
  | zero => simp only [Nat.pow_zero, Nat.mod_one]
  | succ k ih =>
    have hk := h k (Nat.lt_succ_self k)
    rw [Nat.shiftRight_eq_div_pow, Nat.shiftRight_eq_div_pow, Nat.pow_mul] at hk
    rw [Nat.pow_succ, Nat.mod_mul, Nat.mod_mul, ih fun i hi => h i (Nat.lt_succ_of_lt hi)]
    exact congrArg (fun r => m % 256 ^ k + 256 ^ k * r) hk

theorem lengthBytes_inj {n m : Nat} (hn : n < UInt64.size) (hm : m < UInt64.size)
    (h : lengthBytes n = lengthBytes m) : n = m := by
  have hb : ∀ i < 8, (n >>> (8 * i)) % 256 = (m >>> (8 * i)) % 256 := by
    intro i hi
    have := congrArg (fun l => (l[i]?).map UInt8.toNat) h
    simpa [lengthBytes, hi] using this
  have hmod : n % UInt64.size = m % UInt64.size := mod_eq_of_bytes hb
  rwa [Nat.mod_eq_of_lt hn, Nat.mod_eq_of_lt hm] at hmod

/-- The length of a text fits eight bytes. -/
def Fits (s : String) : Prop := s.utf8ByteSize < UInt64.size

instance (s : String) : Decidable (Fits s) :=
  inferInstanceAs (Decidable (s.utf8ByteSize < UInt64.size))

theorem framed_append_inj {s t : String} (hs : Fits s) (ht : Fits t) {rest rest' : List UInt8}
    (h : framed s ++ rest = framed t ++ rest') : s = t ∧ rest = rest' := by
  unfold framed at h
  rw [List.append_assoc, List.append_assoc] at h
  obtain ⟨hl, hr⟩ := List.append_inj h (by rw [length_lengthBytes, length_lengthBytes])
  have hn := lengthBytes_inj hs ht hl
  obtain ⟨hu, hrest⟩ := List.append_inj hr (by rw [length_toUTF8, length_toUTF8, hn])
  exact ⟨toUTF8_toList_inj hu, hrest⟩

theorem framedOption_inj {m m' : Option String} (hm : ∀ s ∈ m, Fits s) (hm' : ∀ s ∈ m', Fits s)
    (h : framedOption m = framedOption m') : m = m' := by
  cases m with
  | none =>
    cases m' with
    | none => rfl
    | some t => exact absurd (List.cons.inj h).1 (by decide)
  | some s =>
    cases m' with
    | none => exact absurd (List.cons.inj h).1 (by decide)
    | some t =>
      have h' : framed s ++ [] = framed t ++ [] := by
        rw [List.append_nil, List.append_nil]
        exact (List.cons.inj h).2
      rw [(framed_append_inj (hm s rfl) (hm' t rfl) h').1]

/-- **The bytes of a key determine its parts.** -/
theorem keyBytes_inj {c c' o o' : String} {m m' : Option String} (hc : Fits c) (hc' : Fits c')
    (ho : Fits o) (ho' : Fits o') (hm : ∀ s ∈ m, Fits s) (hm' : ∀ s ∈ m', Fits s)
    (h : keyBytes c o m = keyBytes c' o' m') : c = c' ∧ o = o' ∧ m = m' := by
  unfold keyBytes at h
  rw [List.append_assoc, List.append_assoc] at h
  obtain ⟨rfl, h₁⟩ := framed_append_inj hc hc' h
  obtain ⟨rfl, h₂⟩ := framed_append_inj ho ho' h₁
  exact ⟨rfl, rfl, framedOption_inj hm hm' h₂⟩

end Fingerprint

/-! ## The text of emit options -/

theorem Target.name_inj : ∀ {t t' : Target}, t.name = t'.name → t = t' := by
  intro t t' h
  cases t <;> cases t' <;> first | rfl | exact absurd h (by decide)

theorem ModuleKind.name_inj : ∀ {m m' : ModuleKind}, m.name = m'.name → m = m' := by
  intro m m' h
  cases m <;> cases m' <;> first | rfl | exact absurd h (by decide)

theorem Jsx.name_inj : ∀ {j j' : Jsx}, j.name = j'.name → j = j' := by
  intro j j' h
  cases j <;> cases j' <;> first | rfl | exact absurd h (by decide)

namespace Json

theorem bool_append_inj {b b' : Bool} {rest rest' : List Char}
    (h : compactChars (.bool b) ++ rest = compactChars (.bool b') ++ rest') :
    b = b' ∧ rest = rest' := by
  cases b <;> cases b' <;> simp_all [compactChars]

theorem jsx_append_inj {j j' : Option Jsx} {rest rest' : List Char}
    (h : compactChars (ofOption (fun j => .text j.name) j) ++ rest =
      compactChars (ofOption (fun j : Jsx => .text j.name) j') ++ rest') :
    j = j' ∧ rest = rest' := by
  cases j with
  | none =>
    cases j' with
    | none => exact ⟨rfl, List.append_cancel_left h⟩
    | some b => simp [ofOption, compactChars, quoteChars] at h
  | some a =>
    cases j' with
    | none => simp [ofOption, compactChars, quoteChars] at h
    | some b =>
      obtain ⟨hn, hr⟩ := quoteChars_append_inj h
      rw [Jsx.name_inj hn]
      exact ⟨rfl, hr⟩

theorem compactItems_text_cons (s : String) (l : List String) :
    compactItems (.text s :: l.map .text) =
      quoteChars s ++ (if l = [] then [']'] else ',' :: compactItems (l.map .text)) := by
  cases l with
  | nil => rfl
  | cons t l => rw [if_neg (List.cons_ne_nil t l)]; rfl

theorem texts_append_inj {l l' : List String} {rest rest' : List Char}
    (h : compactItems (l.map .text) ++ rest = compactItems (l'.map .text) ++ rest') :
    l = l' ∧ rest = rest' := by
  induction l generalizing l' with
  | nil =>
    cases l' with
    | nil => exact ⟨rfl, List.append_cancel_left h⟩
    | cons t l' =>
      rw [List.map_cons, compactItems_text_cons] at h
      simp [compactItems, quoteChars] at h
  | cons s l ih =>
    cases l' with
    | nil =>
      rw [List.map_cons, compactItems_text_cons] at h
      simp [compactItems, quoteChars] at h
    | cons t l' =>
      rw [List.map_cons, List.map_cons, compactItems_text_cons, compactItems_text_cons,
        List.append_assoc, List.append_assoc] at h
      obtain ⟨rfl, hr⟩ := quoteChars_append_inj h
      by_cases hl : l = [] <;> by_cases hl' : l' = [] <;>
        simp only [hl, hl', if_true, if_false] at hr
      · rw [hl, hl']
        exact ⟨rfl, List.append_cancel_left hr⟩
      · simp at hr
      · simp at hr
      · obtain ⟨rfl, hrest⟩ := ih (List.cons.inj hr).2
        exact ⟨rfl, hrest⟩

end Json

namespace EmitOptions

open Json

/-- **The text of emit options determines them.** -/
theorem text_inj {o o' : EmitOptions} (h : o.text = o'.text) : o = o' := by
  obtain ⟨target, module, jsx, strict, declaration, sourceMap, types⟩ := o
  obtain ⟨target', module', jsx', strict', declaration', sourceMap', types'⟩ := o'
  have h₀ := List.cons.inj (String.ofList_injective h) |>.2
  simp only [compactMembers, List.append_assoc, List.cons_append] at h₀
  have key : ∀ {k : String} {rest rest' : List Char},
      quoteChars k ++ ':' :: rest = quoteChars k ++ ':' :: rest' → rest = rest' :=
    fun hk => (List.cons.inj (List.append_cancel_left hk)).2
  have comma : ∀ {rest rest' : List Char}, ',' :: rest = ',' :: rest' → rest = rest' :=
    fun hc => (List.cons.inj hc).2
  obtain ⟨htarget, h₁⟩ := quoteChars_append_inj (key h₀)
  obtain ⟨hmodule, h₂⟩ := quoteChars_append_inj (key (comma h₁))
  obtain ⟨rfl, h₃⟩ := jsx_append_inj (key (comma h₂))
  obtain ⟨rfl, h₄⟩ := bool_append_inj (key (comma h₃))
  obtain ⟨rfl, h₅⟩ := bool_append_inj (key (comma h₄))
  obtain ⟨rfl, h₆⟩ := bool_append_inj (key (comma h₅))
  obtain ⟨rfl, -⟩ := texts_append_inj (List.cons.inj (key (comma h₆))).2
  rw [Target.name_inj htarget, ModuleKind.name_inj hmodule]

end EmitOptions

/-! ## Fingerprints -/

namespace Fingerprint

variable {d : Digest}

/-- The lengths of all that a key stands for fit eight bytes. -/
structure Sized (fp : Fingerprint) : Prop where
  contentHash : Fits fp.contentHash
  options : Fits fp.options
  moduleName : ∀ s ∈ fp.moduleName, Fits s

/-- **Fingerprints of contents with one key are equal** if the digest separates them, whatever the
options are written like. -/
theorem ofText_eq_of_key_eq {c c' o o' : String} {m m' : Option String}
    (hd : d.Separates (ofText d c o m).bytes (ofText d c' o' m').bytes)
    (hs : (ofText d c o m).Sized) (hs' : (ofText d c' o' m').Sized)
    (h : (ofText d c o m).key = (ofText d c' o' m').key) :
    ofText d c o m = ofText d c' o' m' := by
  have hb := congrArg (fun b : ByteArray => b.data.toList) (hd h)
  obtain ⟨hc, ho, hm⟩ := keyBytes_inj hs.contentHash hs'.contentHash hs.options hs'.options
    hs.moduleName hs'.moduleName hb
  change d.ofText c = d.ofText c' at hc
  change o = o' at ho
  change m = m' at hm
  unfold ofText
  dsimp only
  rw [hc, ho, hm]

theorem eq_of_key_eq {c c' : String} {o o' : EmitOptions} {m m' : Option String}
    (hd : d.Separates (of d c o m).bytes (of d c' o' m').bytes)
    (hs : (of d c o m).Sized) (hs' : (of d c' o' m').Sized)
    (h : (of d c o m).key = (of d c' o' m').key) : of d c o m = of d c' o' m' :=
  ofText_eq_of_key_eq hd hs hs' h

/-- **Equal fingerprints have the same content, options and module name.** -/
theorem of_inj {c c' : String} {o o' : EmitOptions} {m m' : Option String}
    (hd : d.Separates c.toUTF8 c'.toUTF8) (h : of d c o m = of d c' o' m') :
    c = c' ∧ o = o' ∧ m = m' :=
  ⟨Digest.ofText_inj hd (congrArg contentHash h), EmitOptions.text_inj (congrArg options h),
    congrArg moduleName h⟩

end Fingerprint

end CompileCache
