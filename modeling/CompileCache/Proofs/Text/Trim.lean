import CompileCache.Proofs.Disk.Paths
import CompileCache.Text.Blank
import Mathlib.Data.List.DropRight

/-!
# Trim — texts without blanks at their ends, and cutting texts at a character

* `Tight`: no blank at either end; `Tight.trim_eq`, `tight_trim`.
* **`trim_padded`**: blanks around a tight text are trimmed off.
* `tight_of_ends`, `Tight.append`: texts that begin and end without a blank.
* `cut?_append`, `cut?_append_of_mem`: where a text is cut first.
-/

namespace CompileCache.Text

variable {cs : List Char}

/-- Blanks only. -/
def AllBlank (cs : List Char) : Prop := ∀ c ∈ cs, isBlank c = true

theorem allBlank_nil : AllBlank [] := fun _ h => absurd h List.not_mem_nil

theorem allBlank_space : AllBlank [' '] := List.forall_mem_singleton.2 (by decide)

/-- No blank at either end. -/
structure Tight (cs : List Char) : Prop where
  head : ∀ c ∈ cs.head?, isBlank c = false
  last : ∀ c ∈ cs.getLast?, isBlank c = false

theorem trimStart_eq_self (h : ∀ c ∈ cs.head?, isBlank c = false) : trimStart cs = cs := by
  cases cs with
  | nil => rfl
  | cons c cs => exact trimStart_cons_of_not_isBlank (h c rfl) cs

theorem trimEnd_eq_self (h : ∀ c ∈ cs.getLast?, isBlank c = false) : trimEnd cs = cs := by
  unfold trimEnd
  rw [trimStart_eq_self, List.reverse_reverse]
  rwa [List.head?_reverse]

theorem Tight.trim_eq (h : Tight cs) : trim cs = cs := by
  unfold trim
  rw [trimStart_eq_self h.head, trimEnd_eq_self h.last]

theorem head?_trimStart (cs : List Char) {c : Char} (h : c ∈ (trimStart cs).head?) :
    isBlank c = false := by
  have := List.head?_dropWhile_not isBlank cs
  rwa [show (cs.dropWhile isBlank).head? = some c from h] at this

theorem getLast?_trimEnd {c : Char} (h : c ∈ (trimEnd cs).getLast?) : isBlank c = false := by
  unfold trimEnd at h
  rw [List.getLast?_reverse] at h
  exact head?_trimStart _ h

theorem tight_trim (cs : List Char) : Tight (trim cs) where
  head := fun c h => by
    obtain ⟨t, ht⟩ : trim cs <+: trimStart cs := List.rdropWhile_prefix isBlank (trimStart cs)
    cases hcs : trim cs with
    | nil => rw [hcs] at h; cases h
    | cons d ds =>
      rw [hcs] at h ht
      refine head?_trimStart cs ?_
      rw [← ht]
      exact h
  last := fun _ h => getLast?_trimEnd h

theorem mem_of_mem_trim {c : Char} (h : c ∈ trim cs) : c ∈ cs :=
  (List.dropWhile_sublist isBlank).subset ((List.rdropWhile_prefix isBlank _).subset h)

theorem mem_trimStart {c : Char} (h : c ∈ cs) (hc : isBlank c = false) : c ∈ trimStart cs := by
  rw [← List.takeWhile_append_dropWhile (p := isBlank) (l := cs), List.mem_append] at h
  refine h.resolve_left fun hm => ?_
  rw [List.mem_takeWhile_imp hm] at hc
  cases hc

theorem mem_trim {c : Char} (h : c ∈ cs) (hc : isBlank c = false) : c ∈ trim cs :=
  List.mem_reverse.2 (mem_trimStart (List.mem_reverse.2 (mem_trimStart h hc)) hc)

theorem trimStart_append_of_allBlank {b : List Char} (hb : AllBlank b) (cs : List Char) :
    trimStart (b ++ cs) = trimStart cs := List.dropWhile_append_of_pos hb

theorem trimEnd_append_of_allBlank {b : List Char} (hb : AllBlank b) (cs : List Char) :
    trimEnd (cs ++ b) = trimEnd cs := by
  unfold trimEnd
  rw [List.reverse_append, trimStart_append_of_allBlank fun c hc => hb c (List.mem_reverse.1 hc)]

/-- **Blanks around a tight text are trimmed off.** -/
theorem trim_padded {b b' : List Char} (hb : AllBlank b) (hb' : AllBlank b') (h : Tight cs) :
    trim (b ++ cs ++ b') = cs := by
  unfold trim
  rw [List.append_assoc, trimStart_append_of_allBlank hb]
  cases cs with
  | nil =>
    have hnil : trimStart b' = [] := List.dropWhile_eq_nil_iff.2 hb'
    rw [List.nil_append, hnil]
    rfl
  | cons c cs =>
    have hstart : trimStart (c :: cs ++ b') = c :: cs ++ b' := trimStart_eq_self h.head
    rw [hstart, trimEnd_append_of_allBlank hb', trimEnd_eq_self h.last]

theorem tight_of_ends {c d : Char} (hc : isBlank c = false) (cs : List Char)
    (hd : isBlank d = false) : Tight (c :: (cs ++ [d])) where
  head := fun _ h => Option.some.inj h ▸ hc
  last := fun _ h => by
    rw [← List.cons_append, List.getLast?_concat] at h
    exact Option.some.inj h ▸ hd

theorem Tight.append {a : List Char} (ha : ∀ c ∈ a.head?, isBlank c = false) (h : Tight cs)
    (hne : cs ≠ []) : Tight (a ++ cs) where
  head := fun c hc => by
    cases a with
    | nil => exact h.head c hc
    | cons d a => exact ha c hc
  last := fun c hc => by
    rw [List.getLast?_append_of_ne_nil a hne] at hc
    exact h.last c hc

/-! ## Cutting -/

theorem cut?_append {sep : Char} {a : List Char} (h : sep ∉ a) (b : List Char) :
    cut? sep (a ++ sep :: b) = some (a, b) := by
  induction a with
  | nil => exact if_pos rfl
  | cons c a ih =>
    rw [List.mem_cons, not_or] at h
    rw [List.cons_append, cut?, if_neg (Ne.symm h.1), ih h.2]
    rfl

theorem cut?_append_of_mem {sep : Char} {a : List Char} (h : sep ∈ a) :
    ∃ x y, ∀ b, cut? sep (a ++ b) = some (x, y ++ b) := by
  obtain ⟨x, y, rfl, hx⟩ := List.eq_append_cons_of_mem h
  exact ⟨x, y, fun b => by rw [List.append_assoc, List.cons_append, cut?_append hx]⟩

end CompileCache.Text
