import CompileCache.Disk.Path

/-!
# Relative — paths as a file names them

* `follow`: a step from a directory for each piece of a target; steps above the root go nowhere.
* **`joinRelative`**: a target as seen from the directory of a file.
-/

namespace CompileCache.Mini

/-- The names of a directory after one more piece. -/
def followPiece (names : List String) (piece : String) : List String :=
  if Path.isIdle piece then names
  else if piece = ".." then names.dropLast
  else names ++ [piece]

/-- The names of a directory after all pieces of a target. -/
def follow (names pieces : List String) : List String := pieces.foldl followPiece names

/-- **A target as seen from the directory of a file.** -/
def joinRelative (file target : String) : String :=
  "/".intercalate (follow (Path.pieces file).dropLast (Path.pieces target))

end CompileCache.Mini
