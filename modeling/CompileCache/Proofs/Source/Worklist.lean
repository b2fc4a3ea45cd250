import CompileCache.Proofs.Source.Descent

/-!
# Worklist — looking at one path after the other, in any order

* `Work`: the paths that were reached, and those that are still to be looked at.
* `Works`: one of these paths is looked at, whichever it is. **`wellFounded_works`**: this can be
  done only so often.
* `Fits`: what the paths of a work have to do with the paths that it began with; `Fits.works`,
  `Fits.run`.
* **`works_end_iff`**: a work that cannot go on has reached the closure, whatever the order was.
-/

namespace CompileCache.Source

/-- The paths that were reached, and those that are still to be looked at. -/
structure Work where
  reached : KeySet
  pending : List String

/-- One path is looked at. What its content leads to is to be looked at too, whenever that is. -/
inductive Works (s : Source) (next : String → String → List String) : Work → Work → Prop
  | passed {seen : KeySet} {before after : List String} {p : String} (hp : p ∈ seen) :
      Works s next ⟨seen, before ++ p :: after⟩ ⟨seen, before ++ after⟩
  | bare {seen : KeySet} {before after : List String} {p : String} (hp : ¬p ∈ seen)
      (hc : s.content p = none) :
      Works s next ⟨seen, before ++ p :: after⟩ ⟨seen.add p, before ++ after⟩
  | read {seen : KeySet} {before after pending : List String} {p content : String}
      (hp : ¬p ∈ seen) (hc : s.content p = some content)
      (hpending : pending.Perm (next p content ++ (before ++ after))) :
      Works s next ⟨seen, before ++ p :: after⟩ ⟨seen.add p, pending⟩

variable {s : Source} {next : String → String → List String} {w w' : Work} {roots : List String}

/-! ## The end -/

/-- **Paths can be looked at only so often**: each time there are fewer unread paths with content,
or as many of these and fewer paths to look at. -/
theorem wellFounded_works (s : Source) (next : String → String → List String) :
    WellFounded fun w' w => Works s next w w' := by
  refine Subrelation.wf (r := fun w' w : Work => Prod.Lex (· < ·) (· < ·)
    (s.unread w'.reached, w'.pending.length) (s.unread w.reached, w.pending.length)) ?_
    (InvImage.wf _ (Prod.lex Nat.lt_wfRel Nat.lt_wfRel).wf)
  intro w' w h
  cases h with
  | passed => exact Prod.Lex.right _ (by simp)
  | bare =>
    rename_i seen before after p hp hc
    rcases Nat.lt_or_eq_of_le (unread_add_le s seen p) with hlt | heq
    · exact Prod.Lex.left _ _ hlt
    · simp only [heq]
      exact Prod.Lex.right _ (by simp)
  | read hp hc => exact Prod.Lex.left _ _ (unread_add_lt hc hp)

theorem exists_works (s : Source) (next : String → String → List String) (h : w.pending ≠ []) :
    ∃ w', Works s next w w' := by
  obtain ⟨seen, pending⟩ := w
  obtain ⟨p, rest, rfl⟩ := List.exists_cons_of_ne_nil h
  by_cases hp : p ∈ seen
  · exact ⟨_, (.passed hp : Works s next ⟨seen, [] ++ p :: rest⟩ _)⟩
  · cases hc : s.content p with
    | none => exact ⟨_, (.bare hp hc : Works s next ⟨seen, [] ++ p :: rest⟩ _)⟩
    | some content =>
      exact ⟨_, (.read hp hc (.refl _) : Works s next ⟨seen, [] ++ p :: rest⟩ _)⟩

theorem not_works_iff : (∀ w', ¬Works s next w w') ↔ w.pending = [] := by
  constructor
  · intro h
    refine Decidable.byContradiction fun hne => ?_
    obtain ⟨w', hw⟩ := exists_works s next hne
    exact h w' hw
  · rintro h w' (_ | _ | _) <;> simp at h

/-! ## What is reached -/

/-- The paths of a work, as seen from the paths that it began with. -/
structure Fits (s : Source) (next : String → String → List String) (roots : List String)
    (w : Work) : Prop where
  /-- No path is there that the first ones do not lead to. -/
  led : ∀ p, p ∈ w.reached ∨ p ∈ w.pending → ∃ r ∈ roots, Reaches s next r p
  /-- None of the first ones was lost. -/
  roots : ∀ r ∈ roots, r ∈ w.reached ∨ r ∈ w.pending
  /-- Nothing was lost that a path leads to which was looked at. -/
  onward : ∀ p ∈ w.reached, ∀ content, s.content p = some content → ∀ q ∈ next p content,
    q ∈ w.reached ∨ q ∈ w.pending

theorem fits_start (s : Source) (next : String → String → List String) (roots : List String) :
    Fits s next roots ⟨.empty, roots⟩ where
  led := fun p hp => ⟨p, hp.resolve_left (KeySet.not_mem_empty p), .refl p⟩
  roots := fun _ hr => .inr hr
  onward := fun p hp => absurd hp (KeySet.not_mem_empty p)

theorem mem_taken {seen : KeySet} {before after : List String} {p q : String} :
    q ∈ seen ∨ q ∈ before ++ p :: after ↔ q ∈ seen.add p ∨ q ∈ before ++ after := by
  simp only [KeySet.mem_add, List.mem_append, List.mem_cons]
  grind

theorem mem_passed {seen : KeySet} {before after : List String} {p q : String} (hp : p ∈ seen) :
    q ∈ seen ∨ q ∈ before ++ p :: after ↔ q ∈ seen ∨ q ∈ before ++ after := by
  rw [mem_taken, KeySet.mem_add]
  constructor
  · rintro ((rfl | h) | h)
    · exact .inl hp
    · exact .inl h
    · exact .inr h
  · exact fun h => h.imp_left .inr

/-- **Looking at a path loses nothing, and adds nothing that is not led to.** -/
theorem Fits.works (h : Fits s next roots w) (hw : Works s next w w') : Fits s next roots w' := by
  cases hw with
  | passed hp =>
    exact {
      led := fun q hq => h.led q ((mem_passed hp).2 hq)
      roots := fun r hr => (mem_passed hp).1 (h.roots r hr)
      onward := fun q hq content hc x hx => (mem_passed hp).1 (h.onward q hq content hc x hx) }
  | bare hp hc =>
    refine ⟨fun q hq => h.led q (mem_taken.2 hq), fun r hr => mem_taken.1 (h.roots r hr), ?_⟩
    intro q hq content ht x hx
    rcases KeySet.mem_add.1 hq with rfl | hq
    · rw [hc] at ht
      cases ht
    · exact mem_taken.1 (h.onward q hq content ht x hx)
  | @read seen before after pending p content hp hc hpending =>
    have hmem : ∀ q, q ∈ pending ↔ q ∈ next p content ∨ q ∈ before ++ after := fun q =>
      hpending.mem_iff.trans List.mem_append
    refine ⟨fun q hq => ?_, fun r hr => ?_, fun q hq text ht x hx => ?_⟩
    · -- what the content leads to is led to over the path that is looked at
      rcases hq with hq | hq
      · exact h.led q (mem_taken.2 (.inl hq))
      · rcases (hmem q).1 hq with hq | hq
        · obtain ⟨r, hr, hp⟩ := h.led p (.inr (by simp))
          exact ⟨r, hr, hp.trans (.step hc hq (.refl q))⟩
        · exact h.led q (mem_taken.2 (.inr hq))
    · exact (mem_taken.1 (h.roots r hr)).imp_right fun hr => (hmem r).2 (.inr hr)
    · rcases KeySet.mem_add.1 hq with rfl | hq
      · rw [hc] at ht
        cases ht
        exact .inr ((hmem x).2 (.inl hx))
      · exact (mem_taken.1 (h.onward q hq text ht x hx)).imp_right fun hx => (hmem x).2 (.inr hx)

theorem Fits.run (h : Fits s next roots w) (hw : Relation.ReflTransGen (Works s next) w w') :
    Fits s next roots w' := by
  induction hw with
  | refl => exact h
  | tail _ hstep ih => exact ih.works hstep

theorem Fits.reached_eq {seen : KeySet} (h : Fits s next roots ⟨seen, []⟩) :
    seen = s.closure next roots := by
  refine KeySet.ext_mem fun p => ?_
  rw [mem_closure]
  constructor
  · exact fun hp => h.led p (.inl hp)
  · rintro ⟨r, hr, hp⟩
    refine hp.mem_of_closed ((h.roots r hr).resolve_right List.not_mem_nil) ?_
    exact fun q hq content hc x hx =>
      (h.onward q hq content hc x hx).resolve_right List.not_mem_nil

theorem exists_end (s : Source) (next : String → String → List String) (w : Work) :
    ∃ seen, Relation.ReflTransGen (Works s next) w ⟨seen, []⟩ := by
  induction w using (wellFounded_works s next).induction with
  | _ w ih =>
    by_cases h : w.pending = []
    · obtain ⟨seen, pending⟩ := w
      cases h
      exact ⟨seen, .refl⟩
    · obtain ⟨w', hw⟩ := exists_works s next h
      obtain ⟨seen, hrun⟩ := ih w' hw
      exact ⟨seen, .head hw hrun⟩

/-- **A work that cannot go on has reached the closure**, in whatever order the paths were looked
at. -/
theorem works_end_iff : Relation.ReflTransGen (Works s next) ⟨.empty, roots⟩ w ∧
    (∀ w', ¬Works s next w w') ↔ w = ⟨s.closure next roots, []⟩ := by
  have hend : ∀ seen, Relation.ReflTransGen (Works s next) ⟨.empty, roots⟩ ⟨seen, []⟩ →
      seen = s.closure next roots :=
    fun seen hrun => ((fits_start s next roots).run hrun).reached_eq
  rw [not_works_iff]
  constructor
  · rintro ⟨hrun, hdone⟩
    obtain ⟨seen, pending⟩ := w
    cases hdone
    rw [← hend seen hrun]
  · rintro rfl
    obtain ⟨seen, hrun⟩ := exists_end s next ⟨.empty, roots⟩
    exact ⟨hend seen hrun ▸ hrun, rfl⟩

end CompileCache.Source
