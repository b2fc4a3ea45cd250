import CompileCache.Disk.Basic
import CompileCache.Disk.Path

/-!
# Walk — from paths to nodes

* `Disk.Fault`, `Disk.Fault.message`: why an operation on files fails.
* `Disk.Place`: where a path leads, which may be a place without a node.
* `Disk.Aim`: what a path is walked for.
* `Disk.walkFrom`, `Disk.walk`: follows names, and links as far as a budget of forty goes.
* `Disk.walkFrom_idle`, `Disk.walkFrom_up`, `Disk.walkFrom_link`, `Disk.walkFrom_name`: the steps of
  a walk.
* `Disk.resolve`: the place of a path; `Disk.node?`: the node there.
-/

namespace CompileCache.Disk

/-- Why an operation on files fails. -/
inductive Fault where
  | notFound
  | alreadyExists
  | notDirectory
  | isDirectory
  | nameTooLong
  | tooManyLinks
  /-- The path has a character that no path can have. -/
  | zeroByte
  /-- The content is no text. -/
  | notText
  /-- The file to copy is no file. -/
  | notCopied
deriving DecidableEq

/-- The wording of a fault. -/
def Fault.message : Fault → String
  | .notFound => "No such file or directory (os error 2)"
  | .alreadyExists => "File exists (os error 17)"
  | .notDirectory => "Not a directory (os error 20)"
  | .isDirectory => "Is a directory (os error 21)"
  | .nameTooLong => "File name too long (os error 36)"
  | .tooManyLinks => "Too many levels of symbolic links (os error 40)"
  | .zeroByte => "file name contained an unexpected NUL byte"
  | .notText => "stream did not contain valid UTF-8"
  | .notCopied => "the source path is neither a regular file nor a symlink to a regular file"

/-- Where a path leads: names from the root that pass no link, and the node there. -/
structure Place where
  names : List String
  node : Option Node

/-- A name may have this many bytes. -/
def maxName : Nat := 255

/-- A path has to have fewer bytes than this. -/
def maxPath : Nat := 4096

/-- A walk may expand this many links. -/
def maxLinks : Nat := 40

/-- What a path is walked for. -/
inductive Aim where
  /-- The node at its end. -/
  | node
  /-- The node at its end, which may be a link that is not followed. -/
  | entry
  /-- A file that is written at its end; no separators may follow its name. -/
  | file
deriving DecidableEq

/-- Walks on from the directory `here`, and by `follow` from where a link leads. -/
def walkFrom (d : Disk) (aim : Aim) (follow : List String → List String → Except Fault Place)
    (here : List String) : List String → Except Fault Place
  | [] => .ok ⟨here, d.get? here⟩
  | name :: rest =>
    match d.get? here with
    | none => .error .notFound
    | some (.file _) | some (.link _) => .error .notDirectory
    | some (.dir entries) =>
      if Path.isIdle name then walkFrom d aim follow here rest
      else if name = ".." then walkFrom d aim follow here.dropLast rest
      else if aim = .file ∧ rest ≠ [] ∧ rest.all (· == "") then .error .isDirectory
      else if name.utf8ByteSize > maxName then .error .nameTooLong
      else match KeyMap.lookup name entries with
        | none =>
          if rest.all (· == "") then .ok ⟨here ++ [name], none⟩
          else .error .notFound
        | some (.link target) =>
          if rest = [] ∧ aim = .entry then .ok ⟨here ++ [name], some (.link target)⟩
          else follow (if Path.isAbsolute target then [] else here) (Path.pieces target ++ rest)
        | some _ => walkFrom d aim follow (here ++ [name]) rest

/-! What a walk from a directory does with its next name. -/

section Next

variable {d : Disk} {aim : Aim} {follow : List String → List String → Except Fault Place}
  {here rest : List String} {name target : String} {entries : List (String × Node)}
  (hd : d.get? here = some (.dir entries))
include hd

theorem walkFrom_idle (hi : Path.isIdle name = true) :
    d.walkFrom aim follow here (name :: rest) = d.walkFrom aim follow here rest := by
  rw [walkFrom, hd]
  exact if_pos hi

theorem walkFrom_up :
    d.walkFrom aim follow here (".." :: rest) = d.walkFrom aim follow here.dropLast rest := by
  rw [walkFrom, hd]
  dsimp only
  rw [if_neg (by decide), if_pos rfl]

variable (hi : ¬Path.isIdle name = true) (hdd : ¬name = "..")
  (haim : ¬(aim = .file ∧ rest ≠ [] ∧ rest.all (· == "") = true))
  (hlen : ¬name.utf8ByteSize > maxName)
include hi hdd haim hlen

/-- Links are followed, but for one at the end of a walk to an entry. -/
theorem walkFrom_link (hl : KeyMap.lookup name entries = some (.link target)) :
    d.walkFrom aim follow here (name :: rest) =
      if rest = [] ∧ aim = .entry then .ok ⟨here ++ [name], some (.link target)⟩
      else follow (if Path.isAbsolute target then [] else here) (Path.pieces target ++ rest) := by
  rw [walkFrom, hd]
  dsimp only
  rw [if_neg hi, if_neg hdd, if_neg haim, if_neg hlen, hl]

theorem walkFrom_name {x : Node} (hx : ∀ target, x = .link target → False)
    (hl : KeyMap.lookup name entries = some x) :
    d.walkFrom aim follow here (name :: rest) = d.walkFrom aim follow (here ++ [name]) rest := by
  rw [walkFrom, hd]
  dsimp only
  rw [if_neg hi, if_neg hdd, if_neg haim, if_neg hlen, hl]
  cases x with
  | link target => exact (hx target rfl).elim
  | file b => rfl
  | dir l => rfl

end Next

/-- Walks on from a directory, with a budget of links to expand. -/
def walk (d : Disk) (aim : Aim) : Nat → List String → List String → Except Fault Place
  | 0 => d.walkFrom aim fun _ _ => .error .tooManyLinks
  | budget + 1 => d.walkFrom aim (walk d aim budget)

/-- The place of a path. -/
def resolve (d : Disk) (aim : Aim) (path : String) : Except Fault Place :=
  if path = "" then .error .notFound
  else if path.toList.contains '\x00' then .error .zeroByte
  else if path.utf8ByteSize ≥ maxPath then .error .nameTooLong
  else d.walk aim maxLinks [] (Path.pieces path)

/-- The node that a path leads to, links followed. -/
def node? (d : Disk) (path : String) : Except Fault Node :=
  (d.resolve .node path).bind fun p => match p.node with
    | none => .error .notFound
    | some node => .ok node

end CompileCache.Disk
