import CompileCache.Text.Pieces

/-!
# Path — paths as texts

* `Path.pieces`, `Path.names`: what stands between the separators, and the pieces that lead
  anywhere.
* `Path.isAbsolute`, `Path.startsHere`: how a path starts. `Path.same`: two texts with the same
  start and the same names.
* `Path.join`, `Path.parent`: one path under another, and the path without its last name.
* `Path.below?`: the rest of a path under another.
-/

namespace CompileCache.Path

/-- What stands between the separators of a path. -/
def pieces (path : String) : List String := (Text.pieces '/' path.toList).map String.ofList

/-- Whether a piece stays where it is. -/
def isIdle (piece : String) : Bool := piece == "" || piece == "."

/-- The pieces of a path that lead anywhere. -/
def names (path : String) : List String := (pieces path).filter fun p => !isIdle p

/-- Whether a path starts at the root whatever it is joined to. -/
def isAbsolute (path : String) : Bool := path.toList.head? == some '/'

/-- Whether a path says that it starts where it is. -/
def startsHere (path : String) : Bool := (pieces path).head? == some "."

/-- Whether two paths are the same, piece by piece. Idle pieces do not count, but for a point at the
start. -/
def same (a b : String) : Bool :=
  names a == names b && isAbsolute a == isAbsolute b && startsHere a == startsHere b

/-- A path under another; an absolute one stays as it is. -/
def join (base path : String) : String :=
  if isAbsolute path || base == "" then path
  else if base.toList.getLast? == some '/' then base ++ path
  else base ++ "/" ++ path

/-- The path of the directory that a path lies in. -/
def parent (path : String) : String :=
  (if isAbsolute path then "/" else "") ++ "/".intercalate (names path).dropLast

/-- Drops idle pieces at the start. -/
def dropIdle (l : List String) : List String := l.dropWhile isIdle

/-- The pieces after the given names, with idle pieces in between. -/
def after? : List String → List String → Option (List String)
  | [], pieces => some pieces
  | _ :: _, [] => none
  | n :: ns, p :: pieces =>
    if p = n then after? ns pieces
    else if isIdle p then after? (n :: ns) pieces
    else none

/-- The rest of a path under another, without idle pieces at its ends. -/
def below? (base path : String) : Option String :=
  (after? (names base) (pieces path)).map fun rest =>
    "/".intercalate (dropIdle (dropIdle rest).reverse).reverse

end CompileCache.Path
