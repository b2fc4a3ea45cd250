import CompileCache.Source.Closure

/-!
# Descent — going down from path to path, depth first

* `Descent`: the paths that were seen on a way down, and the names that were found.
* **`descend`**: goes down from some paths, one after the other. A path that was seen is passed by.
  Of another path the own names are kept, and the way goes on with the paths that its content leads
  to, before the paths beside it.
-/

namespace CompileCache

/-- What was met on a way down. -/
structure Descent where
  /-- The paths that were seen, on this way or before it. -/
  seen : KeySet
  /-- The own names of the paths that were seen on this way. -/
  found : KeySet

/-- The way below a path with some names of its own, and then the way beside it. -/
def Descent.join (own : List String) (below beside : Descent) : Descent :=
  ⟨beside.seen, (KeySet.ofList own).union (below.found.union beside.found)⟩

namespace Source

/-- **Goes down from some paths**, where others were seen already: `next path content` lists the
paths that a content leads to, and `own path content` its own names. No way leads back to a path
with content, so the paths with content that are left get fewer. -/
def descend (s : Source) (next own : String → String → List String) (seen : KeySet) :
    List String → {w : Descent // s.unread w.seen ≤ s.unread seen}
  | [] => ⟨⟨seen, .empty⟩, Nat.le_refl _⟩
  | p :: rest =>
    if _hp : p ∈ seen then descend s next own seen rest
    else match _hc : s.content p with
      | none =>
        let beside := descend s next own (seen.add p) rest
        ⟨beside.1, Nat.le_trans beside.2 (unread_add_le s seen p)⟩
      | some content =>
        let below := descend s next own (seen.add p) (next p content)
        let beside := descend s next own below.1.seen rest
        ⟨.join (own p content) below.1 beside.1,
          Nat.le_trans (Nat.le_trans beside.2 below.2) (unread_add_le s seen p)⟩
termination_by paths => (s.unread seen, paths.length)
decreasing_by
  · exact Prod.Lex.right _ (by simp)
  · rcases Nat.lt_or_eq_of_le (unread_add_le s seen p) with hlt | heq
    · exact Prod.Lex.left _ _ hlt
    · rw [heq]; exact Prod.Lex.right _ (by simp)
  · exact Prod.Lex.left _ _ (unread_add_lt _hc _hp)
  · exact Prod.Lex.left _ _ (Nat.lt_of_le_of_lt below.2 (unread_add_lt _hc _hp))

end Source

end CompileCache
