import CompileCache.Json.Decode
import CompileCache.Json.Printer
import CompileCache.Json.Reader

/-!
# Options — the settings of a build

* `Options`: language level, module system, checks, ambient typings, excluded paths, architecture,
  and whether cached results may be used.
* `EmitOptions`, `Options.emit`: the part that emitted code and diagnostics can depend on.
* `members`, `toJson`, `ofJson?`, `text`: options as JSON; `Options.parse?` reads a text without any
  check.
* `Flavor`: the syntax of a snippet.
-/

namespace CompileCache

/-- The language level of the emitted code. -/
inductive Target where
  | es5
  | es2015
  | es2017
  | es2020
  | esnext
deriving DecidableEq, Inhabited

namespace Target

/-- The name of a language level. -/
def name : Target → String
  | .es5 => "es5"
  | .es2015 => "es2015"
  | .es2017 => "es2017"
  | .es2020 => "es2020"
  | .esnext => "esnext"

/-- The language levels by name. -/
def table : List (String × Target) :=
  [.es5, .es2015, .es2017, .es2020, .esnext].map fun t => (t.name, t)

end Target

/-- The module system of the emitted code. -/
inductive ModuleKind where
  | commonjs
  | esnext
  | none
deriving DecidableEq, Inhabited

namespace ModuleKind

/-- The name of a module system. -/
def name : ModuleKind → String
  | .commonjs => "commonjs"
  | .esnext => "esnext"
  | .none => "none"

/-- The module systems by name. -/
def table : List (String × ModuleKind) := [.commonjs, .esnext, .none].map fun m => (m.name, m)

end ModuleKind

/-- What happens to markup in the source. -/
inductive Jsx where
  | preserve
  | react
deriving DecidableEq, Inhabited

namespace Jsx

/-- The name of a treatment of markup. -/
def name : Jsx → String
  | .preserve => "preserve"
  | .react => "react"

/-- The treatments of markup by name. -/
def table : List (String × Jsx) := [.preserve, .react].map fun j => (j.name, j)

end Jsx

/-- The settings of a build. -/
structure Options where
  target : Target := .es2017
  module : ModuleKind := .commonjs
  jsx : Option Jsx := none
  strict : Bool := false
  declaration : Bool := false
  sourceMap : Bool := false
  /-- The files with ambient declarations to start from. -/
  types : List String := []
  /-- Patterns for paths that are left out of the working set. -/
  exclude : List String := []
  /-- Each architecture has a compiler and a version table of its own. -/
  arch : String := "os"
  useCache : Bool := true
deriving DecidableEq, Inhabited

/-- The settings that emitted code and diagnostics can depend on. -/
structure EmitOptions where
  target : Target
  module : ModuleKind
  jsx : Option Jsx
  strict : Bool
  declaration : Bool
  sourceMap : Bool
  types : List String
deriving DecidableEq

/-- The settings that emitted code and diagnostics can depend on. -/
def Options.emit (o : Options) : EmitOptions :=
  ⟨o.target, o.module, o.jsx, o.strict, o.declaration, o.sourceMap, o.types⟩

/-! ## Options as JSON -/

/-- The names of all settings, in the order in which they are written. -/
def Options.fieldNames : List String :=
  ["target", "module", "jsx", "strict", "declaration", "source_map", "types", "exclude", "arch",
    "use_cache"]

/-- The members of options that are written; absent treatment of markup is left out. -/
def Options.members (o : Options) : List (String × Json) :=
  [("target", .text o.target.name), ("module", .text o.module.name)] ++
    (o.jsx.elim [] fun j => [("jsx", .text j.name)]) ++
    [("strict", .bool o.strict), ("declaration", .bool o.declaration),
      ("source_map", .bool o.sourceMap), ("types", .ofTexts o.types),
      ("exclude", .ofTexts o.exclude), ("arch", .text o.arch), ("use_cache", .bool o.useCache)]

/-- Options as an object. -/
def Options.toJson (o : Options) : Json := .object o.members

/-- Options out of a value; what is absent has its standard setting. -/
def Options.ofJson? (j : Json) : Option Options := do
  let r ← j.record? fieldNames
  let target ← r.default "target" .es2017 (Json.oneOf? Target.table)
  let module ← r.default "module" .commonjs (Json.oneOf? ModuleKind.table)
  let jsx ← r.default "jsx" none (Json.nullable? (Json.oneOf? Jsx.table))
  let strict ← r.default "strict" false Json.bool?
  let declaration ← r.default "declaration" false Json.bool?
  let sourceMap ← r.default "source_map" false Json.bool?
  let types ← r.default "types" [] (Json.list? Json.text?)
  let exclude ← r.default "exclude" [] (Json.list? Json.text?)
  let arch ← r.default "arch" "os" Json.text?
  let useCache ← r.default "use_cache" true Json.bool?
  return ⟨target, module, jsx, strict, declaration, sourceMap, types, exclude, arch, useCache⟩

/-- Options on one line. -/
def Options.text (o : Options) : String := o.toJson.compact

/-- The options that a text is, without any check. -/
def Options.parse? (s : String) : Option Options := (Json.lenient? s).bind Options.ofJson?

/-- Emit options as an object. -/
def EmitOptions.toJson (o : EmitOptions) : Json :=
  .object [("target", .text o.target.name), ("module", .text o.module.name),
    ("jsx", .ofOption (fun j => .text j.name) o.jsx), ("strict", .bool o.strict),
    ("declaration", .bool o.declaration), ("source_map", .bool o.sourceMap),
    ("types", .ofTexts o.types)]

/-- Emit options on one line. -/
def EmitOptions.text (o : EmitOptions) : String := o.toJson.compact

/-! ## Snippets -/

/-- The syntax of a snippet. -/
inductive Flavor where
  | plain
  | markup
deriving DecidableEq

/-- The extension of a file with this syntax. -/
def Flavor.extension : Flavor → String
  | .plain => "ts"
  | .markup => "tsx"

/-- The syntax that options choose: with markup iff its treatment is set. -/
def Options.flavor (o : Options) : Flavor := if o.jsx.isSome then .markup else .plain

end CompileCache
