import CompileCache.Proofs.Options.Decoding

/-!
# Writing — settings that are written and read back

* `parse_text`, `members_given`: what is written is read back, and gives the settings.
* `conforms_members_iff`: when the schema lets it pass.
* **`Options.ofText_text_iff`**: settings read back iff they pass the checks and no pattern is
  empty.
* `refused_barePattern`: an empty pattern passes the checks, and is refused when it is read.
-/

namespace CompileCache.Options

open Json (Legible)

variable {o : Options}

/-! ## What is written -/

theorem parse_text (o : Options) : Json.parse o.text = .ok (.object o.members) := by
  have htexts : ∀ l, Legible .strict 1 (.ofTexts l) := fun l => .array rfl fun j hj => by
    obtain ⟨s, -, rfl⟩ := List.mem_map.1 hj
    exact .text s
  refine Json.parse_compact (.object rfl (fun _ m hm => ?_) ?_)
  · obtain rfl : ("target", .text o.target.name) = m := Option.some.inj hm
    exact (by decide : "target" ≠ Json.embeddingKey)
  · obtain ⟨_, _, jsx, _⟩ := o
    cases jsx <;> simp [members, Legible.text, Legible.bool, htexts]

theorem members_given (o : Options) : Given o.members o := by
  obtain ⟨_, _, jsx, _⟩ := o
  cases jsx <;> constructor <;> rfl

theorem known_members : ∀ m ∈ o.members, m.1 ∈ fieldNames := by
  obtain ⟨_, _, jsx, _⟩ := o
  cases jsx <;> simp [members, fieldNames]

/-! ## What is read back -/

/-- **The schema lets pass what is written** iff the architecture is an identifier, and no path of
ambient typings and no pattern is empty. -/
theorem conforms_members_iff : Conforms o.members ↔
    isIdentifier o.arch = true ∧ (∀ s ∈ o.types, s ≠ "") ∧ ∀ s ∈ o.exclude, s ≠ "" := by
  have hgiven := o.members_given
  constructor
  · intro h
    exact ⟨h.identifier_arch hgiven, h.nonempty_types hgiven, h.nonempty_exclude hgiven⟩
  · rintro ⟨harch, htypes, hexclude⟩
    refine ⟨known_members, fun name shape hs j hj => ?_⟩
    have hmem := KeyMap.mem_of_lookup hs
    simp only [Schema.shapes, List.mem_cons, Prod.mk.injEq, List.not_mem_nil, or_false] at hmem
    rcases hmem with ⟨rfl, rfl⟩ | ⟨rfl, rfl⟩ | ⟨rfl, rfl⟩ | ⟨rfl, rfl⟩ | ⟨rfl, rfl⟩ | ⟨rfl, rfl⟩ |
      ⟨rfl, rfl⟩ | ⟨rfl, rfl⟩ | ⟨rfl, rfl⟩ | ⟨rfl, rfl⟩
    · rw [hgiven.arch.eq_write hj]
      exact Shape.reads_identifier.admits_write_iff.2 harch
    · rw [hgiven.declaration.eq_write hj]
      exact .flag _
    · rw [hgiven.exclude.eq_write hj]
      exact .texts hexclude
    · rw [hgiven.jsx.eq_write hj]
      exact reads_jsx.admits_write_iff.2 fun _ _ => trivial
    · rw [hgiven.module.eq_write hj]
      exact reads_module.admits_write_iff.2 trivial
    · rw [hgiven.sourceMap.eq_write hj]
      exact .flag _
    · rw [hgiven.strict.eq_write hj]
      exact .flag _
    · rw [hgiven.target.eq_write hj]
      exact reads_target.admits_write_iff.2 trivial
    · rw [hgiven.types.eq_write hj]
      exact .texts htypes
    · rw [hgiven.useCache.eq_write hj]
      exact .flag _

/-- **Settings read back** iff they pass the checks and no pattern is empty. The schema does not let
an empty pattern pass, but the checks do. -/
theorem ofText_text_iff (o : Options) :
    ofText o.text = .ok o ↔ o.validate = .ok () ∧ ∀ p ∈ o.exclude, p ≠ "" := by
  have hparse := o.parse_text
  constructor
  · intro h
    rcases ofText_cases o.text with ⟨members, o', hj, hconforms, -, -, hvalidate, ht⟩ | ⟨e, he, -⟩
    · cases hj.symm.trans hparse
      cases ht.symm.trans h
      exact ⟨hvalidate, hconforms.nonempty_exclude o.members_given⟩
    · cases h.symm.trans he
  · rintro ⟨hvalidate, hexclude⟩
    obtain ⟨harch, htypes, -⟩ := validate_eq_ok_iff.1 hvalidate
    have hconforms := conforms_members_iff.2 ⟨harch, htypes, hexclude⟩
    obtain ⟨o', hgiven, hvalidate', ht⟩ := hconforms.ofText_eq hparse
    cases hgiven.eq o.members_given
    rw [ht, ← hvalidate', hvalidate]
    rfl

/-! ## An empty pattern -/

/-- The standard settings with an empty pattern for excluded paths. -/
def barePattern : Options := { exclude := [""] }

theorem parse_bare : Glob.parse "" = .ok [] := by
  change Glob.parseFrom .start none [] = _
  rw [Glob.parseFrom]
  rfl

/-- **An empty pattern passes the checks, and is refused when it is read.** -/
theorem refused_barePattern : barePattern.validate = .ok () ∧
    ofText barePattern.text = .error (.schema ⟨.empty, .text "", ["exclude", "0"]⟩) := by
  constructor
  · exact validate_eq_ok_iff.2 ⟨by decide, nofun, [[]], .cons parse_bare .nil, rfl⟩
  · rw [ofText_eq_ofValue barePattern.parse_text]
    rfl

end CompileCache.Options
