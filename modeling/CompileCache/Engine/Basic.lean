import CompileCache.Engine.References
import CompileCache.Error
import CompileCache.Source.World

/-!
# Engine — compilers as seen from outside

* `WorkingSet`: the paths to compile, where their contents come from, and the settings.
* `Report`, `Output`: what a compiler says about a path, without and with code.
* `Engine`: a compiler with a state of its own. It reads contents through a view of their origins
  that it is given anew with every call.
* `Call`: a call to a compiler, for a record of what was asked of it.
* `Script`, `Engine.scripted`: a compiler whose answers for some paths are given ahead.
-/

namespace CompileCache

/-- The paths to compile, where their contents come from, and the settings. -/
structure WorkingSet where
  /-- The paths, in ascending order. -/
  files : List String
  origin : Origin
  options : Options
deriving DecidableEq

instance : Inhabited WorkingSet := ⟨⟨[], default, {}⟩⟩

/-- What a compiler says about a path. -/
structure Report where
  diagnostics : Diagnostics
  references : References
deriving DecidableEq, Inhabited

/-- What a compiler makes of a path. -/
structure Output extends Report where
  /-- The emitted code, if there is any. -/
  code : Option String
deriving DecidableEq, Inhabited

/-- The contents that an origin has at some moment. -/
abbrev View := Origin → Source

/-- A compiler with states of type `σ`. -/
structure Engine (σ : Type) where
  /-- A new compiler for an architecture. -/
  create : String → σ
  /-- Registers a working set in the stead of the last one. -/
  load : σ → WorkingSet → σ
  /-- Checks a path and emits its code; the last argument overrides the name of the module. -/
  compile : View → σ → String → Option String → Except EngineError Output × σ
  /-- Checks a path. -/
  diagnose : View → σ → String → Except EngineError Report × σ

/-- A call to the compiler of an architecture. -/
inductive Call where
  | create (arch : String)
  | load (arch : String) (set : WorkingSet)
  | compile (arch path : String) (moduleName : Option String)
  | diagnose (arch path : String)
deriving DecidableEq

/-! ## Answers given ahead -/

/-- An answer given ahead. -/
inductive Script.Answer where
  | failed (reason : String)
  | unknownFile
  | output (o : Output)

/-- The answer as that of a compiler for a path. -/
def Script.Answer.result (path : String) : Script.Answer → Except EngineError Output
  | .failed reason => .error (.failed path reason)
  | .unknownFile => .error (.unknownFile path)
  | .output o => .ok o

/-- The answers given ahead for a path. -/
structure Script where
  compile : Option Script.Answer
  diagnose : Option Script.Answer

/-- A compiler that gives the answers of a table where there are any. -/
def Engine.scripted {σ : Type} (e : Engine σ) (table : KeyMap Script) : Engine σ where
  create := e.create
  load := e.load
  compile view s path moduleName :=
    match (table.get? path).bind (·.compile) with
    | some a => (a.result path, s)
    | none => e.compile view s path moduleName
  diagnose view s path :=
    match (table.get? path).bind (·.diagnose) with
    | some a => ((a.result path).map (·.toReport), s)
    | none => e.diagnose view s path

end CompileCache
