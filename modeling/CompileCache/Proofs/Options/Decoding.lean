import CompileCache.Error
import CompileCache.Proofs.Json.Lossless
import CompileCache.Proofs.Options.Shapes
import Mathlib.Data.List.Forall2

/-!
# Decoding — what settings an option text gives

* `Shape.Reads`: a way of writing values, and of reading them, that goes with a shape. The shapes of
  the schema: `reads_name`, `reads_orNull`, `reads_flag`, `reads_texts`, `reads_identifier`.
* `Options.Given`: each setting is the value that is given for it, or the standard one; `Given.eq`:
  no other settings are.
* `Conforms.exists_ofJson?`, `Conforms.validate_eq`: members that the schema lets pass are decoded,
  and only their patterns are left to check.
* `PatternsCompile`, `excludeGlobs_cases`: patterns that can be read, and used together.
  `validate_eq_ok_iff`: when settings pass the checks.
* `Options.Refused`: the reasons for which a text is refused.
* **`Options.ofText_exact`**: which texts give settings, and which; why the others do not.
-/

namespace CompileCache

open Json (Record Lossless last?)

/-! ## What goes with a shape -/

section Reads

variable {α : Type} {shape : Shape} {valid : α → Prop} {write : α → Json} {read? : Json → Option α}

/-- A shape lets pass what is written for valid values, and the reading undoes the writing. -/
structure Shape.Reads (shape : Shape) (valid : α → Prop) (write : α → Json)
    (read? : Json → Option α) : Prop where
  read_write : ∀ a, read? (write a) = some a
  admits_iff : ∀ j, shape.Admits j ↔ ∃ a, valid a ∧ j = write a

theorem Shape.reads_flag : Shape.flag.Reads (fun _ => True) .bool Json.bool? where
  read_write _ := rfl
  admits_iff j := by
    constructor
    · rintro ⟨⟩
      exact ⟨_, trivial, rfl⟩
    · rintro ⟨b, -, rfl⟩
      exact .flag b

theorem Shape.reads_identifier :
    Shape.identifier.Reads (isIdentifier · = true) .text Json.text? where
  read_write _ := rfl
  admits_iff j := by
    constructor
    · rintro ⟨⟩
      next h => exact ⟨_, by rwa [← fitsPattern_eq], rfl⟩
    · rintro ⟨s, hs, rfl⟩
      exact .identifier (by rwa [fitsPattern_eq])

theorem Shape.reads_texts :
    Shape.texts.Reads (∀ s ∈ ·, s ≠ "") .ofTexts (Json.list? Json.text?) where
  read_write := (Lossless.list Json.ofText).read_write
  admits_iff j := by
    constructor
    · rintro ⟨⟩
      next h => exact ⟨_, h, rfl⟩
    · rintro ⟨l, hl, rfl⟩
      exact .texts hl

theorem Shape.reads_name (name : α → String) (l : List α) (hl : ∀ a, a ∈ l)
    (h : ∀ a, KeyMap.lookup (name a) (l.map fun a => (name a, a)) = some a) :
    (Shape.name (l.map name) false).Reads (fun _ => True) (fun a => .text (name a))
      (Json.oneOf? (l.map fun a => (name a, a))) where
  read_write := h
  admits_iff j := by
    constructor
    · rintro ⟨⟩
      next hs =>
        obtain ⟨a, -, rfl⟩ := List.mem_map.1 hs
        exact ⟨a, trivial, rfl⟩
    · rintro ⟨a, -, rfl⟩
      exact .name (List.mem_map_of_mem (hl a))

theorem Shape.reads_orNull {names : List String} {name : α → String}
    (h : (Shape.name names false).Reads valid (fun a => .text (name a)) read?) :
    (Shape.name names true).Reads (∀ a ∈ ·, valid a) (.ofOption fun a => .text (name a))
      (Json.nullable? read?) where
  read_write o := by
    cases o with
    | none => rfl
    | some a => exact congrArg (Option.map some) (h.read_write a)
  admits_iff j := by
    constructor
    · rintro ⟨⟩
      · next hs =>
          obtain ⟨a, ha, hj⟩ := (h.admits_iff _).1 (.name hs)
          exact ⟨some a, by simpa using ha, hj⟩
      · exact ⟨none, nofun, rfl⟩
    · rintro ⟨_ | a, ha, rfl⟩
      · exact .null
      · cases (h.admits_iff _).2 ⟨a, ha a rfl, rfl⟩ with
        | name hs => exact .name hs

theorem Shape.Reads.write_inj (h : shape.Reads valid write read?) {a b : α}
    (hab : write a = write b) : a = b := by
  rw [← Option.some_inj, ← h.read_write a, ← h.read_write b, hab]

theorem Shape.Reads.admits_write_iff (h : shape.Reads valid write read?) {a : α} :
    shape.Admits (write a) ↔ valid a := by
  rw [h.admits_iff]
  constructor
  · rintro ⟨b, hb, hab⟩
    rwa [h.write_inj hab]
  · intro ha
    exact ⟨a, ha, rfl⟩

end Reads

/-! ## What is given -/

section Gives

variable {α : Type} {given : Option Json} {write : α → Json} {standard a b : α}

/-- A value is the one that is given, or, if none is, the standard one. -/
def Json.Gives (given : Option Json) (write : α → Json) (standard a : α) : Prop :=
  match given with
  | none => a = standard
  | some j => j = write a

theorem Json.Gives.eq_write (h : Gives given write standard a) {j : Json} (hj : given = some j) :
    j = write a := by
  subst hj
  exact h

theorem Json.Gives.eq_standard (h : Gives given write standard a) (hn : given = none) :
    a = standard := by
  subst hn
  exact h

theorem Shape.Reads.eq_of_gives {shape : Shape} {valid : α → Prop} {read? : Json → Option α}
    (h : shape.Reads valid write read?) (ha : Json.Gives given write standard a)
    (hb : Json.Gives given write standard b) : a = b := by
  cases given with
  | none => rw [ha.eq_standard rfl, hb.eq_standard rfl]
  | some j => exact h.write_inj (by rw [← ha.eq_write rfl, ← hb.eq_write rfl])

end Gives

namespace Options

variable {members : List (String × Json)} {o o' : Options}

/-! ## Decoding -/

theorem reads_target : (Shape.name ["es5", "es2015", "es2017", "es2020", "esnext"] false).Reads
    (fun _ => True) (fun t : Target => .text t.name) (Json.oneOf? Target.table) :=
  Shape.reads_name Target.name [.es5, .es2015, .es2017, .es2020, .esnext]
    (fun t => by cases t <;> decide) fun t => by cases t <;> rfl

theorem reads_module : (Shape.name ["commonjs", "esnext", "none"] false).Reads
    (fun _ => True) (fun m : ModuleKind => .text m.name) (Json.oneOf? ModuleKind.table) :=
  Shape.reads_name ModuleKind.name [.commonjs, .esnext, .none]
    (fun m => by cases m <;> decide) fun m => by cases m <;> rfl

theorem reads_jsx : (Shape.name ["preserve", "react"] true).Reads (∀ a ∈ ·, True)
    (.ofOption fun j : Jsx => .text j.name) (Json.nullable? (Json.oneOf? Jsx.table)) :=
  Shape.reads_orNull <| Shape.reads_name Jsx.name [.preserve, .react]
    (fun j => by cases j <;> decide) fun j => by cases j <;> rfl

/-- Each setting is the value that the members give for it, or the standard one. -/
structure Given (members : List (String × Json)) (o : Options) : Prop where
  target : Json.Gives (last? members "target") (fun t : Target => .text t.name)
    ({} : Options).target o.target
  module : Json.Gives (last? members "module") (fun m : ModuleKind => .text m.name)
    ({} : Options).module o.module
  jsx : Json.Gives (last? members "jsx") (.ofOption fun j : Jsx => .text j.name)
    ({} : Options).jsx o.jsx
  strict : Json.Gives (last? members "strict") .bool ({} : Options).strict o.strict
  declaration : Json.Gives (last? members "declaration") .bool ({} : Options).declaration
    o.declaration
  sourceMap : Json.Gives (last? members "source_map") .bool ({} : Options).sourceMap o.sourceMap
  types : Json.Gives (last? members "types") .ofTexts ({} : Options).types o.types
  exclude : Json.Gives (last? members "exclude") .ofTexts ({} : Options).exclude o.exclude
  arch : Json.Gives (last? members "arch") .text ({} : Options).arch o.arch
  useCache : Json.Gives (last? members "use_cache") .bool ({} : Options).useCache o.useCache

theorem Given.eq (h : Given members o) (h' : Given members o') : o = o' := by
  cases o
  cases o'
  congr 1
  · exact reads_target.eq_of_gives h.target h'.target
  · exact reads_module.eq_of_gives h.module h'.module
  · exact reads_jsx.eq_of_gives h.jsx h'.jsx
  · exact Shape.reads_flag.eq_of_gives h.strict h'.strict
  · exact Shape.reads_flag.eq_of_gives h.declaration h'.declaration
  · exact Shape.reads_flag.eq_of_gives h.sourceMap h'.sourceMap
  · exact Shape.reads_texts.eq_of_gives h.types h'.types
  · exact Shape.reads_texts.eq_of_gives h.exclude h'.exclude
  · exact Shape.reads_identifier.eq_of_gives h.arch h'.arch
  · exact Shape.reads_flag.eq_of_gives h.useCache h'.useCache

theorem validate_eq_of_valid (harch : isIdentifier o.arch = true) (htypes : ∀ s ∈ o.types, s ≠ "") :
    o.validate = o.excludeGlobs.map fun _ => () := by
  have hfind : o.types.findIdx? String.isEmpty = none :=
    List.findIdx?_eq_none_iff.2 fun s hs => by simpa using htypes s hs
  unfold validate
  rw [harch, if_neg (by decide), hfind]

namespace Conforms

theorem exists_record (h : Conforms members) :
    ∃ r, (Json.object members).sorted.record? fieldNames = some r ∧
      ∀ name, r.get? name = last? members name := by
  have hentry : ∀ m ∈ (KeyMap.ofList (Json.sortedMembers members)).entries,
      ∃ j, last? members m.1 = some j ∧ j.sorted = m.2 := fun m hm => by
    rwa [← Option.map_eq_some_iff, ← Json.lookup_sorted,
      KeyMap.lookup_eq_some_iff (KeyMap.ofList _).sorted]
  have hknown : ∀ {name j}, last? members name = some j → name ∈ fieldNames := by
    intro name j hj
    obtain ⟨m, hm, rfl⟩ := Json.exists_last?_iff.1 ⟨j, hj⟩
    exact h.known m hm
  obtain ⟨r, hr, -, hget⟩ := Json.exists_record_of_nodup
    (fun m hm => hknown (hentry m hm).choose_spec.1)
    ((KeyMap.ofList (Json.sortedMembers members)).pairwise_keys.imp KeyMap.ne_of_lt)
  refine ⟨r, hr, fun name => ?_⟩
  rw [hget, Json.lookup_sorted]
  cases hj : last? members name with
  | none => rfl
  | some j =>
    obtain ⟨shape, hs⟩ := Schema.exists_shape_iff.2 (hknown hj)
    exact congrArg some (h.fits name shape hs j hj).sorted_eq

section Field

variable {shape : Shape} {α : Type} {valid : α → Prop} {write : α → Json} {read? : Json → Option α}

theorem exists_default (h : Conforms members) {r : Record}
    (hget : ∀ name, r.get? name = last? members name) (name : String)
    (hs : KeyMap.lookup name Schema.shapes = some shape) (hr : shape.Reads valid write read?)
    (standard : α) : ∃ a, r.default name standard read? = some a ∧
      Json.Gives (last? members name) write standard a := by
  unfold Record.default
  rw [hget]
  cases hj : last? members name with
  | none => exact ⟨standard, rfl, rfl⟩
  | some j =>
    obtain ⟨a, -, rfl⟩ := (hr.admits_iff j).1 (h.fits name shape hs j hj)
    exact ⟨a, hr.read_write a, rfl⟩

theorem valid_of_gives (h : Conforms members) {name : String}
    (hs : KeyMap.lookup name Schema.shapes = some shape) (hr : shape.Reads valid write read?)
    {standard a : α} (hstandard : valid standard)
    (hgives : Json.Gives (last? members name) write standard a) : valid a := by
  cases hj : last? members name with
  | none => rwa [hgives.eq_standard hj]
  | some j =>
    rw [← hr.admits_write_iff, ← hgives.eq_write hj]
    exact h.fits name shape hs j hj

end Field

/-- **What the schema lets pass is decoded**, each setting as it is given. -/
theorem exists_ofJson? (h : Conforms members) :
    ∃ o, ofJson? (Json.object members).sorted = some o ∧ Given members o := by
  obtain ⟨r, hr, hget⟩ := h.exists_record
  obtain ⟨target, htarget, gtarget⟩ := h.exists_default hget "target" rfl reads_target .es2017
  obtain ⟨module, hmodule, gmodule⟩ := h.exists_default hget "module" rfl reads_module .commonjs
  obtain ⟨jsx, hjsx, gjsx⟩ := h.exists_default hget "jsx" rfl reads_jsx none
  obtain ⟨strict, hstrict, gstrict⟩ := h.exists_default hget "strict" rfl Shape.reads_flag false
  obtain ⟨declaration, hdeclaration, gdeclaration⟩ :=
    h.exists_default hget "declaration" rfl Shape.reads_flag false
  obtain ⟨sourceMap, hsourceMap, gsourceMap⟩ :=
    h.exists_default hget "source_map" rfl Shape.reads_flag false
  obtain ⟨types, htypes, gtypes⟩ := h.exists_default hget "types" rfl Shape.reads_texts []
  obtain ⟨exclude, hexclude, gexclude⟩ := h.exists_default hget "exclude" rfl Shape.reads_texts []
  obtain ⟨arch, harch, garch⟩ := h.exists_default hget "arch" rfl Shape.reads_identifier "os"
  obtain ⟨useCache, huseCache, guseCache⟩ :=
    h.exists_default hget "use_cache" rfl Shape.reads_flag true
  refine ⟨⟨target, module, jsx, strict, declaration, sourceMap, types, exclude, arch, useCache⟩, ?_,
    ⟨gtarget, gmodule, gjsx, gstrict, gdeclaration, gsourceMap, gtypes, gexclude, garch, guseCache⟩⟩
  unfold ofJson?
  rw [hr, Option.bind_eq_bind, Option.bind_some]
  simp only [htarget, hmodule, hjsx, hstrict, hdeclaration, hsourceMap, htypes, hexclude, harch,
    huseCache, Option.bind_eq_bind, Option.bind_some]
  rfl

theorem identifier_arch (h : Conforms members) (hgiven : Given members o) :
    isIdentifier o.arch = true :=
  h.valid_of_gives rfl Shape.reads_identifier (by decide) hgiven.arch

theorem nonempty_types (h : Conforms members) (hgiven : Given members o) : ∀ s ∈ o.types, s ≠ "" :=
  h.valid_of_gives rfl Shape.reads_texts (by simp) hgiven.types

theorem nonempty_exclude (h : Conforms members) (hgiven : Given members o) :
    ∀ s ∈ o.exclude, s ≠ "" :=
  h.valid_of_gives rfl Shape.reads_texts (by simp) hgiven.exclude

/-- **What the schema lets pass has only its patterns left to check.** -/
theorem validate_eq (h : Conforms members) (hgiven : Given members o) :
    o.validate = o.excludeGlobs.map fun _ => () :=
  validate_eq_of_valid (h.identifier_arch hgiven) (h.nonempty_types hgiven)

end Conforms

/-! ## Patterns -/

/-- Patterns that each can be read, and that can be used together. -/
def PatternsCompile (l : List String) : Prop :=
  ∃ globs, List.Forall₂ (fun p glob => Glob.parse p = .ok glob) l globs ∧
    Glob.check globs = .ok ()

theorem readGlobs_eq_ok_iff {l : List String} {globs : List (List Glob.Token)} :
    readGlobs l = .ok globs ↔ List.Forall₂ (fun p glob => Glob.parse p = .ok glob) l globs := by
  induction l generalizing globs with
  | nil =>
    rw [readGlobs, List.forall₂_nil_left_iff, Except.ok.injEq]
    exact eq_comm
  | cons p l ih =>
    rw [readGlobs]
    cases hp : Glob.parse p with
    | error f => simp [List.forall₂_cons_left_iff, hp]
    | ok glob =>
      simp only [List.forall₂_cons_left_iff, hp, Except.ok.injEq, ← ih]
      cases readGlobs l with
      | error e => simp [Except.map]
      | ok rest => simp [Except.map, eq_comm]

theorem exists_of_readGlobs_error {l : List String} {e : ConfigError} (h : readGlobs l = .error e) :
    ∃ p ∈ l, ∃ f, Glob.parse p = .error f ∧ e = .glob p f := by
  induction l with
  | nil => simp [readGlobs] at h
  | cons p l ih =>
    rw [readGlobs] at h
    split at h
    · next f hp =>
      cases h
      exact ⟨p, List.mem_cons_self, f, hp, rfl⟩
    · cases hl : readGlobs l with
      | ok globs => rw [hl] at h; cases h
      | error e' =>
        rw [hl] at h
        cases h
        obtain ⟨q, hq, hf⟩ := ih hl
        exact ⟨q, List.mem_cons_of_mem _ hq, hf⟩

/-- Why patterns do not compile: one cannot be read, or they cannot be used together. -/
inductive GlobFailure (l : List String) : ConfigError → Prop
  | glob {p : String} {f : Glob.Fault} (hp : p ∈ l) (hf : Glob.parse p = .error f) :
      GlobFailure l (.glob p f)
  | globs {globs : List (List Glob.Token)} {f : Glob.SetFault}
      (hl : List.Forall₂ (fun p glob => Glob.parse p = .ok glob) l globs)
      (hf : Glob.check globs = .error f) : GlobFailure l (.globs f)

/-- **The patterns are accepted if they compile, and else refused for a reason of theirs.** -/
theorem excludeGlobs_cases (o : Options) :
    (PatternsCompile o.exclude ∧ (o.excludeGlobs.map fun _ => ()) = .ok ()) ∨
      ¬PatternsCompile o.exclude ∧
        ∃ e, (o.excludeGlobs.map fun _ => ()) = .error e ∧ GlobFailure o.exclude e := by
  unfold excludeGlobs
  split
  · next hempty =>
    rw [List.isEmpty_iff.1 hempty]
    exact .inl ⟨⟨[], .nil, rfl⟩, rfl⟩
  · cases hl : readGlobs o.exclude with
    | error e =>
      obtain ⟨p, hp, f, hf, rfl⟩ := exists_of_readGlobs_error hl
      refine .inr ⟨?_, _, rfl, .glob hp hf⟩
      rintro ⟨globs, hglobs, -⟩
      rw [readGlobs_eq_ok_iff.2 hglobs] at hl
      cases hl
    | ok globs =>
      cases hc : Glob.check globs with
      | ok _ => exact .inl ⟨⟨globs, readGlobs_eq_ok_iff.1 hl, hc⟩, by dsimp only; rw [hc]; rfl⟩
      | error f =>
        refine .inr ⟨?_, .globs f, by dsimp only; rw [hc]; rfl,
          .globs (readGlobs_eq_ok_iff.1 hl) hc⟩
        rintro ⟨globs', hglobs, hc'⟩
        cases hl.symm.trans (readGlobs_eq_ok_iff.2 hglobs)
        cases hc.symm.trans hc'

theorem excludeGlobs_eq_ok_iff :
    (o.excludeGlobs.map fun _ => ()) = .ok () ↔ PatternsCompile o.exclude := by
  rcases o.excludeGlobs_cases with ⟨hglobs, hok⟩ | ⟨hn, e, he, -⟩
  · exact iff_of_true hok hglobs
  · exact iff_of_false (by rw [he]; nofun) hn

theorem validate_eq_ok_iff : o.validate = .ok () ↔
    isIdentifier o.arch = true ∧ (∀ s ∈ o.types, s ≠ "") ∧ PatternsCompile o.exclude := by
  by_cases harch : isIdentifier o.arch = true
  · by_cases htypes : ∀ s ∈ o.types, s ≠ ""
    · rw [validate_eq_of_valid harch htypes, excludeGlobs_eq_ok_iff]
      exact ⟨fun h => ⟨harch, htypes, h⟩, fun h => h.2.2⟩
    · refine iff_of_false ?_ fun h => htypes h.2.1
      intro h
      unfold validate at h
      rw [harch, if_neg (by decide)] at h
      split at h
      · cases h
      · next hfind =>
        exact htypes fun s hs => by simpa using List.findIdx?_eq_none_iff.1 hfind s hs
  · refine iff_of_false ?_ fun h => harch h.1
    intro h
    unfold validate at h
    rw [if_pos (by simpa using harch)] at h
    cases h

theorem Given.patterns_iff (hgiven : Given members o) :
    (∀ l, last? members "exclude" = some (.ofTexts l) → PatternsCompile l) ↔
      PatternsCompile o.exclude := by
  cases hj : last? members "exclude" with
  | none =>
    rw [hgiven.exclude.eq_standard hj]
    exact ⟨fun _ => ⟨[], .nil, rfl⟩, fun _ _ h => by cases h⟩
  | some j =>
    obtain rfl := hgiven.exclude.eq_write hj
    simp only [Option.some.injEq]
    exact ⟨fun h => h _ rfl, fun h l hl => by rwa [← Shape.reads_texts.write_inj hl]⟩

/-! ## Texts -/

/-- Why a text gives no settings: it is no JSON, the schema does not let its value pass, or its
patterns do not compile. -/
inductive Refused (t : String) : ConfigError → Prop
  | json {reason : String} (hj : Json.parse t = .error reason) : Refused t (.json reason)
  | schema {j : Json} {v : Violation} (hj : Json.parse t = .ok j)
      (h : ¬∃ members, j = .object members ∧ Conforms members)
      (hv : Schema.check j.sorted = some v) : Refused t (.schema v)
  | patterns {members : List (String × Json)} {o : Options} {e : ConfigError}
      (hj : Json.parse t = .ok (.object members)) (h : Conforms members)
      (hgiven : Given members o) (he : GlobFailure o.exclude e) : Refused t e

theorem Refused.ofConfig_eq {t : String} {e : ConfigError} (h : Refused t e) :
    BuildError.ofConfig e = .config e := by
  cases h with
  | json | schema => rfl
  | patterns _ _ _ he => cases he <;> rfl

theorem ofText_eq_ofValue {t : String} {j : Json} (hj : Json.parse t = .ok j) :
    ofText t = ofValue Schema.shapes j.sorted := by
  rw [ofText, Schema.read_text, ofTextBy, hj]

theorem Conforms.ofText_eq (h : Conforms members) {t : String}
    (hj : Json.parse t = .ok (.object members)) : ∃ o, Given members o ∧
      o.validate = (o.excludeGlobs.map fun _ => ()) ∧
      ofText t = (o.excludeGlobs.map fun _ => ()).map fun _ => o := by
  obtain ⟨o, ho, hgiven⟩ := h.exists_ofJson?
  refine ⟨o, hgiven, h.validate_eq hgiven, ?_⟩
  have hv : Schema.checkBy Schema.shapes (Json.object members).sorted = none :=
    Schema.check_sorted_eq_none_iff.2 ⟨members, rfl, h⟩
  rw [ofText_eq_ofValue hj, ofValue, hv, ho]
  dsimp only
  rw [h.validate_eq hgiven]

theorem ofText_cases (t : String) :
    (∃ members o, Json.parse t = .ok (.object members) ∧ Conforms members ∧ Given members o ∧
      PatternsCompile o.exclude ∧ o.validate = .ok () ∧ ofText t = .ok o) ∨
    ∃ e, ofText t = .error e ∧ Refused t e := by
  cases hj : Json.parse t with
  | error reason => exact .inr ⟨.json reason, by rw [ofText, ofTextBy, hj], .json hj⟩
  | ok j =>
    cases hv : Schema.check j.sorted with
    | some v =>
      have hrefused : ofText t = .error (.schema v) := by
        rw [ofText_eq_ofValue hj, ofValue,
          show Schema.checkBy Schema.shapes j.sorted = some v from hv]
      refine .inr ⟨.schema v, hrefused, .schema hj ?_ hv⟩
      rw [← Schema.check_sorted_eq_none_iff, hv]
      nofun
    | none =>
      obtain ⟨members, rfl, h⟩ := Schema.check_sorted_eq_none_iff.1 hv
      obtain ⟨o, hgiven, hvalidate, ht⟩ := h.ofText_eq hj
      rcases o.excludeGlobs_cases with ⟨hglobs, hok⟩ | ⟨-, e, herror, he⟩
      · exact .inl ⟨members, o, rfl, h, hgiven, hglobs, hvalidate.trans hok, by rw [ht, hok]; rfl⟩
      · exact .inr ⟨e, by rw [ht, herror]; rfl, .patterns hj h hgiven he⟩

/-- **Schema, decoder and checks agree.** A text gives settings iff it is an object whose members
the schema lets pass, with patterns that compile. Then each setting is what is given for it, or the
standard one, and they pass the checks. Other texts are refused because of their syntax, by the
schema or for their patterns: what the schema lets pass can be decoded, and nothing but its patterns
can fail a check. No refusal is an internal failure, as the schema can be read. -/
theorem ofText_exact (t : String) :
    ((∃ o, ofText t = .ok o) ↔ ∃ members, Json.parse t = .ok (.object members) ∧
      Conforms members ∧ ∀ l, last? members "exclude" = some (.ofTexts l) → PatternsCompile l) ∧
    (∀ o, ofText t = .ok o → o.validate = .ok () ∧
      ∃ members, Json.parse t = .ok (.object members) ∧ Given members o) ∧
    (∀ e, ofText t = .error e → Refused t e ∧ BuildError.ofConfig e = .config e) ∧
    ∀ j : Json, Schema.check j.sorted = none → ∃ o, ofJson? j.sorted = some o ∧
      o.validate = o.excludeGlobs.map fun _ => () := by
  refine ⟨⟨?_, ?_⟩, ?_, ?_, ?_⟩
  · rintro ⟨o, ho⟩
    rcases ofText_cases t with ⟨members, o', hj, h, hgiven, hglobs, -⟩ | ⟨e, he, -⟩
    · exact ⟨members, hj, h, hgiven.patterns_iff.2 hglobs⟩
    · cases ho.symm.trans he
  · rintro ⟨members, hj, h, hglobs⟩
    obtain ⟨o, hgiven, -, ht⟩ := h.ofText_eq hj
    rcases o.excludeGlobs_cases with ⟨-, hok⟩ | ⟨hn, -⟩
    · exact ⟨o, by rw [ht, hok]; rfl⟩
    · exact absurd (hgiven.patterns_iff.1 hglobs) hn
  · intro o ho
    rcases ofText_cases t with ⟨members, o', hj, -, hgiven, -, hvalidate, ht⟩ | ⟨e, he, -⟩
    · cases ho.symm.trans ht
      exact ⟨hvalidate, members, hj, hgiven⟩
    · cases ho.symm.trans he
  · intro e he
    rcases ofText_cases t with ⟨-, o, -, -, -, -, -, ht⟩ | ⟨e', he', hrefused⟩
    · cases he.symm.trans ht
    · cases he.symm.trans he'
      exact ⟨hrefused, hrefused.ofConfig_eq⟩
  · intro j hj
    obtain ⟨members, rfl, h⟩ := Schema.check_sorted_eq_none_iff.1 hj
    obtain ⟨o, ho, hgiven⟩ := h.exists_ofJson?
    exact ⟨o, ho, h.validate_eq hgiven⟩

end Options

end CompileCache
