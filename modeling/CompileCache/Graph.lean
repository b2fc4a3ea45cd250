import CompileCache.Artifact.Basic

/-!
# Graph — what depends on what

* `Graph`: the latest dependencies of every path that was compiled.
* `Graph.dependentsOf`: the paths whose latest record mentions a path, in ascending order.
-/

namespace CompileCache

/-- The latest dependencies of every path that was compiled. -/
structure Graph where
  byPath : KeyMap Dependencies
deriving DecidableEq

namespace Graph

/-- The graph without records. -/
def empty : Graph := ⟨.empty⟩

instance : Inhabited Graph := ⟨empty⟩

/-- Records the dependencies of a path in the stead of earlier ones. -/
def record (g : Graph) (path : String) (deps : Dependencies) : Graph := ⟨g.byPath.insert path deps⟩

/-- The latest dependencies of a path. -/
def dependenciesOf (g : Graph) (path : String) : Option Dependencies := g.byPath.get? path

/-- The paths whose latest record mentions a path. -/
def dependentsOf (g : Graph) (path : String) : List String :=
  (g.byPath.filter fun _ deps => deps.paths.contains path).keys

/-- How many paths have a record. -/
def size (g : Graph) : Nat := g.byPath.size

theorem dependenciesOf_record (g : Graph) (path p : String) (deps : Dependencies) :
    (g.record path deps).dependenciesOf p = if p = path then some deps else g.dependenciesOf p :=
  g.byPath.get?_insert path p deps

end Graph

end CompileCache
