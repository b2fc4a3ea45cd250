import CompileCache.Session.Slot

/-!
# Search — finding a path among paths in ascending order

* `search`: halves the paths until at most one is left, and compares that.
* **`Build.finds`**: whether the search finds a path in the working set of a build.
-/

namespace CompileCache

/-- Looks for a path among paths in ascending order. The path in the middle decides in which half;
of an odd number it belongs to both. -/
def search (path : String) (files : List String) : Bool :=
  if files.length ≤ 1 then files.head? = some path
  else
    let half := files.length / 2
    if files[half]?.any (path < ·) then search path (files.take (files.length - half))
    else search path (files.drop half)
termination_by files.length
decreasing_by
  · simp only [List.length_take]; omega
  · simp only [List.length_drop]; omega

/-- **Whether a search finds a path in the working set of a build.** -/
def Build.finds (b : Build) (path : String) : Bool := search path b.set.files

end CompileCache
