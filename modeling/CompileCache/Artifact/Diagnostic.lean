/-!
# Diagnostic — what a compiler says about a source text

* `Position`, `Location`, `Span`: places, by line and column and by bytes.
* `Diagnostic`: one error or warning; one that reports an import without a target is marked.
* `Diagnostics`: the syntactic and the semantic ones, in the order of the compiler.
* `Diagnostics.hasUnresolved`: whether a semantic one is marked.
-/

namespace CompileCache

/-- A place in a text; lines count from one and columns from zero. -/
structure Position where
  line : UInt32
  column : UInt32
deriving DecidableEq, Ord, Inhabited

/-- A range of places. -/
structure Location where
  start : Position
  stop : Position
deriving DecidableEq, Ord, Inhabited

/-- The first `columns` characters of a line. -/
def Location.onLine (line columns : UInt32) : Location := ⟨⟨line, 0⟩, ⟨line, columns⟩⟩

/-- A range of bytes; the end is not in it. -/
structure Span where
  start : UInt32
  stop : UInt32
deriving DecidableEq, Ord, Inhabited

/-- How bad a diagnostic is. -/
inductive Severity where
  | error
  | warning
deriving DecidableEq, Ord, Inhabited

/-- An error or a warning about a source text. -/
structure Diagnostic where
  code : UInt32
  message : String
  span : Span
  loc : Option Location
  severity : Severity
  /-- Whether it reports an import that found no target. -/
  unresolved : Bool
deriving DecidableEq, Ord, Inhabited

namespace Diagnostic

/-- An error without a line and column. -/
def error (code : UInt32) (message : String) (span : Span) : Diagnostic :=
  ⟨code, message, span, none, .error, false⟩

/-- The diagnostic at a line and column. -/
def withLoc (d : Diagnostic) (loc : Location) : Diagnostic := { d with loc := some loc }

/-- The diagnostic with another severity. -/
def withSeverity (d : Diagnostic) (s : Severity) : Diagnostic := { d with severity := s }

/-- The diagnostic marked as the report of an import without a target. -/
def markUnresolved (d : Diagnostic) : Diagnostic := { d with unresolved := true }

/-- Whether it is an error. -/
def isError (d : Diagnostic) : Bool := d.severity = .error

end Diagnostic

/-- The diagnostics of one source text. -/
structure Diagnostics where
  syntactic : List Diagnostic
  semantic : List Diagnostic
deriving DecidableEq

namespace Diagnostics

/-- No diagnostic. -/
def empty : Diagnostics := ⟨[], []⟩

instance : Inhabited Diagnostics := ⟨empty⟩

/-- Whether a semantic diagnostic reports an import without a target. -/
def hasUnresolved (d : Diagnostics) : Bool := d.semantic.any (·.unresolved)

/-- The number of errors in both lists. -/
def errorCount (d : Diagnostics) : Nat := (d.syntactic ++ d.semantic).countP (·.isError)

/-- Whether both lists are empty. -/
def isEmpty (d : Diagnostics) : Bool := d.syntactic.isEmpty && d.semantic.isEmpty

end Diagnostics

end CompileCache
