import CompileCache.KeyMap
import CompileCache.Mini.Program

/-!
# Scope — the names and modules that a file can use

* `Scope`: global names, with the literal of those that are bound to one, and declared modules.
* `Scope.absorb`: adds what a program declares. A constant literal counts in the stead of an
  earlier one; other bindings and declarations only make a name known.
-/

namespace CompileCache.Mini

/-- The names and modules that a file can use. -/
structure Scope where
  /-- The global names, with the literal of those that are bound to one. -/
  globals : KeyMap (Option String)
  /-- The declared modules with the names that they export. -/
  modules : KeyMap KeySet

namespace Scope

/-- The scope without names and modules. -/
def empty : Scope := ⟨.empty, .empty⟩

instance : Inhabited Scope := ⟨empty⟩

/-- Makes a name known. -/
def declare (s : Scope) (name : String) : Scope :=
  if s.globals.contains name then s else { s with globals := s.globals.insert name none }

/-- Adds what a statement declares. -/
def absorbStatement (s : Scope) : Statement → Scope
  | .binding _ .constant name (.literal text) =>
    { s with globals := s.globals.insert name (some text) }
  | .binding _ _ name _ | .declareConst name => s.declare name
  | .declareModule specifier members =>
    let known := (s.modules.get? specifier).getD .empty
    { s with modules := s.modules.insert specifier (KeySet.addAll known members) }
  | _ => s

/-- Adds what statements declare, in order. -/
def absorbAll (s : Scope) (l : List Statement) : Scope := l.foldl absorbStatement s

/-- Adds what a program declares. -/
def absorb (s : Scope) (p : Program) : Scope := s.absorbAll p.statements

/-- The literal that a global name is bound to. -/
def constant? (s : Scope) (name : String) : Option String := (s.globals.get? name).join

end Scope

end CompileCache.Mini
