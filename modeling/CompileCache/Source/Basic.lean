import CompileCache.KeyMap

/-!
# Source — what paths hold

* `Source`: a content for each path of a finite set, and none for the others.
* `Source.ofTable`: the source of a table of contents.
* `Source.Agree`: two sources with the same content of a path.
-/

namespace CompileCache

/-- A content for each path of a finite set. -/
structure Source where
  /-- The content of a path, if it has one. -/
  content : String → Option String
  finite : ∃ l : List String, ∀ p, (content p).isSome = true → p ∈ l

namespace Source

/-- Whether a path has content. -/
def holds (s : Source) (path : String) : Bool := (s.content path).isSome

/-- The source of a table of contents. -/
def ofTable (m : KeyMap String) : Source where
  content := m.get?
  finite := ⟨m.keys, fun p h => (m.mem_keys_iff p).2 h⟩

/-- The source without content. -/
def empty : Source := ofTable .empty

instance : Inhabited Source := ⟨empty⟩

/-- Two sources agree on a path if it has the same content in both, or none. -/
def Agree (s t : Source) (path : String) : Prop := s.content path = t.content path

@[simp] theorem content_ofTable (m : KeyMap String) (p : String) :
    (ofTable m).content p = m.get? p := rfl

end Source

end CompileCache
