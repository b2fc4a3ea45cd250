import CompileCache.Mini.Code

/-!
# Engine — the compiler of the small language

* `Compiler`: the architecture, the working set, and how often it was called.
* `compileWith`, `diagnoseWith`: what it answers for a working set, whatever went before.
* **`engine`**: the compiler as an `Engine`.
-/

namespace CompileCache.Mini

/-- A compiler of the small language. -/
structure Compiler where
  arch : String
  set : WorkingSet
  /-- How often it compiled a path, successfully or not. -/
  compiles : Nat
  /-- How often it only checked a path, successfully or not. -/
  checks : Nat
deriving DecidableEq

namespace Compiler

/-- A new compiler. -/
def new (arch : String) : Compiler := ⟨arch, default, 0, 0⟩

instance : Inhabited Compiler := ⟨new ""⟩

/-- Whether a path is in the working set. -/
def has (c : Compiler) (path : String) : Bool := c.set.files.contains path

end Compiler

/-- What compiling a path of a working set gives. -/
def compileWith (view : View) (set : WorkingSet) (path : String) (moduleName : Option String) :
    Except EngineError Output :=
  (analyze set (view set.origin) path).map fun a =>
    ⟨a.report, emit? set.options path moduleName a⟩

/-- What checking a path of a working set gives. -/
def diagnoseWith (view : View) (set : WorkingSet) (path : String) : Except EngineError Report :=
  (analyze set (view set.origin) path).map (·.report)

/-- **The compiler of the small language.** -/
def engine : Engine Compiler where
  create := Compiler.new
  load c set := { c with set }
  compile view c path moduleName :=
    (compileWith view c.set path moduleName, { c with compiles := c.compiles + 1 })
  diagnose view c path := (diagnoseWith view c.set path, { c with checks := c.checks + 1 })

end CompileCache.Mini
