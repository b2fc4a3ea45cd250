import CompileCache.Artifact.Diagnostic

/-!
# Statement — a small language with one statement a line

* `Keyword`, `Value`, `Statement`: what a line can say.
* `Located`: a statement with its place in the text.
* `Program`: the statements of a text, and the lines that are none.

One line of each form:

* `/// <reference path="globals.ts" />`
* `import { a, b } from "./lib";`
* `export * from "./other";`
* `export const name = 'value';`
* `const local = name;`
* `declare module "pkg" { export const member: string; }`
* `declare const ambient: number;`
-/

namespace CompileCache.Mini

/-- How a name is bound. -/
inductive Keyword where
  | constant
  | variable
deriving DecidableEq

/-- What a name is bound to. -/
inductive Value where
  /-- A quoted text, a number or a truth value, as it is written. -/
  | literal (text : String)
  /-- What another name stands for. -/
  | name (name : String)
deriving DecidableEq

/-- What a line can say. -/
inductive Statement where
  /-- The file at a path is part of the compilation. -/
  | reference (path : String)
  /-- Names from a module. -/
  | imports (names : List String) (specifier : String)
  /-- All that a module exports is exported. -/
  | exportAll (specifier : String)
  | binding (exported : Bool) (keyword : Keyword) (name : String) (value : Value)
  /-- A module without a file, with the names that it exports. -/
  | declareModule (specifier : String) (members : List String)
  /-- A name that is bound elsewhere. -/
  | declareConst (name : String)
  /-- The compiler gives up. -/
  | crash
deriving DecidableEq

/-- A statement with its place in the text. -/
structure Located where
  statement : Statement
  span : Span
  loc : Location
deriving DecidableEq

/-- The statements of a text, and errors for the lines that are none. -/
structure Program where
  items : List Located
  errors : List Diagnostic
deriving DecidableEq

namespace Program

/-- The statements without their places. -/
def statements (p : Program) : List Statement := p.items.map (·.statement)

end Program

end CompileCache.Mini
