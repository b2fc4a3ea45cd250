import CompileCache.Disk.Files
import CompileCache.Source.Basic
import CompileCache.Text.Bounded

/-!
# Directory — a directory as a source

* `Disk.sourceText?`: the text of a file below a directory, unless it is too long.
* `Source.ofDirectory`: the source of a directory. It is finite, as paths are bounded.
* `Disk.discover`: the regular files below a directory that have one of some extensions.
-/

namespace CompileCache

namespace Body

/-- How many bytes a file has, as far as they are known. -/
def size : Body → Nat
  | .bytes b => b.size
  | .entry _ => 0

end Body

namespace Disk

/-- A file of a source may have this many bytes. -/
def maxSourceSize : Nat := 10 * 1024 * 1024

/-- The text of a file below a directory; none if it is too long. -/
def sourceText? (d : Disk) (directory path : String) : Option String :=
  match d.node? (Path.join directory path) with
  | .ok (.file b) => if b.size ≤ maxSourceSize then b.text? else none
  | _ => none

/-- Whether a name ends in a point and one of some extensions. -/
def hasExtension (extensions : List String) (name : String) : Bool :=
  extensions.any fun e => ("." ++ e).toList.isSuffixOf name.toList

/-- The last name of a way below a directory, which is that of the directory for the empty way. -/
def lastName (directory : String) (way : List String) : String :=
  (Path.names directory ++ way).getLastD directory

/-- The ways to the regular files of a directory, or to the file that the path itself is. A link
to a directory counts as the directory, a link to a file as nothing. -/
def ways (d : Disk) (directory : String) : List (List String) :=
  match d.resolve .entry directory with
  | .ok ⟨_, some (.link _)⟩ =>
    match d.node? directory with
    | .ok (.dir entries) => filesIn entries
    | _ => []
  | .ok ⟨_, some node⟩ => filesOf node
  | _ => []

/-- Whether the directories on a way below a directory can be opened. They are opened by their
paths, and the last one has the longest. -/
def opens (directory : String) (way : List String) : Bool :=
  (way.dropLast.foldl Path.join directory).utf8ByteSize < maxPath

/-- Whether a way below a directory leads to a file that is looked for. -/
def isWanted (directory : String) (extensions way : List String) : Bool :=
  opens directory way && hasExtension extensions (lastName directory way)

/-- **The regular files below a directory with one of some extensions**, in ascending order. -/
def discover (d : Disk) (directory : String) (extensions : List String) : List String :=
  (((d.ways directory).filter (isWanted directory extensions)).map ("/".intercalate ·)).mergeSort

theorem byteSize_le_join (base path : String) :
    path.utf8ByteSize ≤ (Path.join base path).utf8ByteSize := by
  unfold Path.join
  split
  · exact Nat.le_refl _
  · split <;> simp only [String.utf8ByteSize_append] <;> omega

theorem byteSize_lt_of_node? {d : Disk} {path : String} {node : Node}
    (h : d.node? path = .ok node) : path.utf8ByteSize < maxPath := by
  unfold node? resolve at h
  split at h
  · cases h
  · split at h
    · cases h
    · split at h
      · cases h
      · omega

end Disk

/-- The source of a directory. -/
def Source.ofDirectory (d : Disk) (directory : String) : Source where
  content := d.sourceText? directory
  finite := by
    obtain ⟨l, hl⟩ := Text.exists_list_of_byteSize_lt Disk.maxPath
    refine ⟨l, fun p h => hl p ?_⟩
    unfold Disk.sourceText? at h
    split at h
    · next hn =>
      exact Nat.lt_of_le_of_lt (Disk.byteSize_le_join directory p) (Disk.byteSize_lt_of_node? hn)
    · cases h

end CompileCache
