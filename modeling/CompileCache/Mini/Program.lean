import CompileCache.Json.Fault
import CompileCache.Mini.Line

/-!
# Program — reading a text

* `Program.ofLines`: the program of some lines, given the index and the byte where they begin.
* **`Program.read`**: the program of a text.
-/

namespace CompileCache.Mini

/-- The error for a line that is no statement. -/
def statementExpected (span : Span) (loc : Location) : Diagnostic :=
  (Diagnostic.error 1128 "Declaration or statement expected." span).withLoc loc

namespace Program

/-- The program without lines. -/
def empty : Program := ⟨[], []⟩

instance : Inhabited Program := ⟨empty⟩

/-- A program with a line in front, which has this span and this location. -/
def push (span : Span) (loc : Location) (p : Program) : Line → Program
  | .statement s => { p with items := ⟨s, span, loc⟩ :: p.items }
  | .comment => p
  | .invalid => { p with errors := statementExpected span loc :: p.errors }

/-- How many bytes a line has. -/
def size (line : List Char) : Nat := Json.byteSize line

/-- The bytes of a line that begins at `offset`. -/
def spanAt (offset : Nat) (line : List Char) : Span :=
  ⟨offset.toUInt32, (offset + size line).toUInt32⟩

/-- The location of the line with an index; blanks at its end do not count. -/
def locationAt (index : Nat) (line : List Char) : Location :=
  .onLine (index + 1).toUInt32 (Text.trimEnd line).length.toUInt32

/-- The program of some lines, the first of which has this index and begins at this byte. -/
def ofLines (index offset : Nat) : List (List Char) → Program
  | [] => empty
  | line :: rest =>
    let others := ofLines (index + 1) (offset + size line + 1) rest
    if (Text.trim line).isEmpty then others
    else others.push (spanAt offset line) (locationAt index line) (Line.read (Text.trim line))

/-- **The program of a text.** -/
def read (content : String) : Program := ofLines 0 0 (Text.pieces '\n' content.toList)

end Program

end CompileCache.Mini
