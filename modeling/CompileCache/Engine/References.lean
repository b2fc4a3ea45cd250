import CompileCache.Tracker.Basic

/-!
# References — the paths that a compiler looked at

* `References`: sets of paths, in the same three parts as `Dependencies`.
* `References.stamped`: dependencies out of references, by observing every path.
-/

namespace CompileCache

/-- The paths that a compiler looked at for one path. -/
structure References where
  /-- Files that are part of the compilation. -/
  refFiles : KeySet
  /-- Files that were imported, directly or not. -/
  modules : KeySet
  /-- Files with ambient declarations, or `none` if none were asked for. -/
  typings : Option KeySet
deriving DecidableEq

namespace References

/-- No path. -/
def empty : References := ⟨.empty, .empty, none⟩

instance : Inhabited References := ⟨empty⟩

variable (d : Digest)

/-- Stamps every path. -/
def stamped (r : References) (t : Tracker) (s : Source) : Dependencies × Tracker :=
  let (refFiles, t₁) := t.stampAll d s r.refFiles
  let (modules, t₂) := t₁.stampAll d s r.modules
  match r.typings with
  | none => (⟨refFiles, modules, none⟩, t₂)
  | some typings =>
    let (stamps, t₃) := t₂.stampAll d s typings
    (⟨refFiles, modules, some stamps⟩, t₃)

end References

end CompileCache
