import CompileCache.Source.Directory

/-!
# World — where contents come from, and what they are now

* `World`: a table of contents and a disk, both of which change as time goes by.
* `Origin`, `Origin.source`: where the contents of a build come from: a table of its own, the table
  of the world, or a directory on its disk.
-/

namespace CompileCache

/-- A table of contents and a disk. -/
structure World where
  table : KeyMap String
  disk : Disk

namespace World

/-- The world without contents and files. -/
def empty : World := ⟨.empty, .empty⟩

instance : Inhabited World := ⟨empty⟩

/-- Sets the content of a path in the table, or removes it. -/
def edit (w : World) (path : String) : Option String → World
  | none => { w with table := w.table.erase path }
  | some content => { w with table := w.table.insert path content }

end World

/-- Where the contents of a build come from. -/
inductive Origin where
  /-- A table that nobody changes. -/
  | table (files : KeyMap String)
  /-- The table of the world. -/
  | live
  /-- A directory on the disk of the world. -/
  | directory (path : String)
deriving DecidableEq

namespace Origin

instance : Inhabited Origin := ⟨.table .empty⟩

/-- The contents in a world. -/
def source (w : World) : Origin → Source
  | .table files => .ofTable files
  | .live => .ofTable w.table
  | .directory path => .ofDirectory w.disk path

end Origin

end CompileCache
