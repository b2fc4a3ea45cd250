import CompileCache.Disk.Walk

/-!
# Files — operations on files by path

* `isFile`, `isDirectory`: what a path leads to.
* `read`, `readText`: the content of a file.
* `write`, `makeDir`, `makeDirs`, `writeUnder`: files and directories; the last two may have made
  directories also where they fail.
* `makeLink`, `copy`.
* `removeFile`, `removeAll`: what a path names, in the second case with all that it holds.
* `filesBelow`: the regular files below a directory, not through links.
-/

namespace CompileCache

/-- The text of a file, if it is one. -/
def Body.text? : Body → Option String
  | .bytes b => String.fromUTF8? b
  | .entry _ => none

/-- A file with a text. -/
def Body.ofText (s : String) : Body := .bytes s.toUTF8

namespace Disk

/-- Whether a path leads to a file. -/
def isFile (d : Disk) (path : String) : Bool :=
  match d.node? path with
  | .ok (.file _) => true
  | _ => false

/-- Whether a path leads to a directory. -/
def isDirectory (d : Disk) (path : String) : Bool :=
  match d.node? path with
  | .ok (.dir _) => true
  | _ => false

/-- What a file holds. -/
def read (d : Disk) (path : String) : Except Fault Body :=
  (d.node? path).bind fun
    | .file b => .ok b
    | .dir _ => .error .isDirectory
    | .link _ => .error .notFound

/-- The text of a file. -/
def readText (d : Disk) (path : String) : Except Fault String :=
  (d.read path).bind fun b => match b.text? with
    | some s => .ok s
    | none => .error .notText

/-- Writes a file, in the stead of one that is there. -/
def write (d : Disk) (path : String) (b : Body) : Except Fault Disk :=
  (d.resolve .file path).bind fun p => match p.node with
    | some (.dir _) => .error .isDirectory
    | _ => .ok (d.putFile p.names b)

/-- The path without separators at its end. -/
def unslashed (path : String) : String :=
  String.ofList (path.toList.reverse.dropWhile (· == '/')).reverse

/-- The names of a path that is free for a new entry; separators at its end do not count. -/
def vacant (d : Disk) (path : String) : Except Fault (List String) :=
  if unslashed path = "" then .error (if path = "" then .notFound else .alreadyExists)
  else (d.resolve .entry (unslashed path)).bind fun p => match p.node with
    | some _ => .error .alreadyExists
    | none => .ok p.names

/-- Makes one directory. -/
def makeDir (d : Disk) (path : String) : Except Fault Disk := (d.vacant path).map d.putDir

/-- Makes a directory where the ones above it may be missing: tries `path`, and if the one above
is missing makes that and tries again. The names of those above are given from the last on. -/
def makeDirsFrom (d : Disk) (path : String) : List String → Disk × Except Fault Unit
  | [] =>
    match d.makeDir path with
    | .ok d' => (d', .ok ())
    | .error f => (d, if d.isDirectory path then .ok () else .error f)
  | name :: above =>
    match d.makeDir path with
    | .ok d' => (d', .ok ())
    | .error .notFound =>
      match d.makeDirsFrom ("/" ++ "/".intercalate (name :: above).reverse) above with
      | (d₁, .error f) => (d₁, .error f)
      | (d₁, .ok ()) =>
        match d₁.makeDir path with
        | .ok d₂ => (d₂, .ok ())
        | .error f => (d₁, if d₁.isDirectory path then .ok () else .error f)
    | .error f => (d, if d.isDirectory path then .ok () else .error f)

/-- Makes a directory and all above it that are missing. The empty path asks for none. -/
def makeDirs (d : Disk) (path : String) : Disk × Except Fault Unit :=
  if path = "" then (d, .ok ()) else d.makeDirsFrom path (Path.names path).reverse.tail

/-- Writes a file and makes the directories above it. -/
def writeUnder (d : Disk) (path : String) (b : Body) : Disk × Except Fault Unit :=
  match d.makeDirs (Path.parent path) with
  | (d₁, .error f) => (d₁, .error f)
  | (d₁, .ok ()) =>
    match d₁.write path b with
    | .ok d₂ => (d₂, .ok ())
    | .error f => (d₁, .error f)

/-- Makes a link. Separators at the end of its path would make it a directory, which it is not. -/
def makeLink (d : Disk) (path target : String) : Except Fault Disk :=
  if target.toList.contains '\x00' then .error .zeroByte
  else if target = "" then .error .notFound
  else if target.utf8ByteSize ≥ maxPath then .error .nameTooLong
  else (d.vacant path).bind fun names =>
    if unslashed path = path then .ok (d.putLink names target) else .error .notFound

/-- Copies a file. A file copied onto itself is emptied. -/
def copy (d : Disk) (source target : String) : Except Fault Disk :=
  (d.resolve .node source).bind fun q =>
    match q.node with
    | none => .error .notFound
    | some (.file b) =>
      (d.resolve .file target).bind fun p =>
        d.write target (if q.names == p.names then .bytes .empty else b)
    | some _ => .error .notCopied

/-! ## Removing -/

/-- Removes a file or a link. -/
def removeFile (d : Disk) (path : String) : Except Fault Disk :=
  (d.resolve .entry path).bind fun p => match p.node with
    | none => .error .notFound
    | some (.dir _) => .error .isDirectory
    | some _ => .ok (d.erase p.names)

/-- Removes all that a directory holds. -/
def clear (d : Disk) : List String → Disk
  | [] => empty
  | names => d.putDir names

/-- Whether a path names a directory without passing a link at its end. -/
def namesDirectory (d : Disk) (path : String) : Bool :=
  match d.resolve .entry (unslashed path) with
  | .ok ⟨_, some (.dir _)⟩ => true
  | _ => false

/-- Removes a file, a link, or a directory with all that it holds, and says whether that succeeds.
A directory is emptied first. It cannot be removed itself under a path that ends in a point or in a
link with separators behind it. Under a path that ends in two points it stays too, but this counts
as success, since the path has gone with what the directory held. -/
def removeAll (d : Disk) (path : String) : Disk × Bool :=
  match d.resolve .entry path with
  | .ok ⟨names, some (.dir _)⟩ =>
    match ((Path.pieces path).filter (· ≠ "")).getLast? with
    | some "." => (d.clear names, false)
    | some ".." => (d.clear names, true)
    | _ => if d.namesDirectory path then (d.erase names, true) else (d.clear names, false)
  | .ok ⟨names, some _⟩ => (d.erase names, true)
  | _ => (d, false)

/-! ## Listing -/

mutual

/-- The ways from a node to the regular files below it. -/
def filesOf : Node → List (List String)
  | .file _ => [[]]
  | .link _ => []
  | .dir entries => filesIn entries

/-- The ways to the regular files below a list of entries. -/
def filesIn : List (String × Node) → List (List String)
  | [] => []
  | (name, node) :: rest => (filesOf node).map (name :: ·) ++ filesIn rest

end

/-- The regular files below a directory by their ways from it, each joined by separators. -/
def filesBelow (d : Disk) (path : String) : List String :=
  match d.node? path with
  | .ok (.dir entries) => (KeySet.ofList ((filesIn entries).map ("/".intercalate ·))).toList
  | _ => []

end Disk

end CompileCache
