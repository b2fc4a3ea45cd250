import CompileCache.Disk.Path

/-!
# Home — where cached artifacts are kept unless stated otherwise

* `Surroundings`: the settings of a user's account that matter.
* `Surroundings.cacheDirectory`: the directory that was asked for, or a place among the user's
  caches.
-/

namespace CompileCache

/-- The settings of a user's account that decide on the cache directory. -/
structure Surroundings where
  /-- The directory that was asked for. -/
  chosen : Option String
  /-- The directory of all caches. -/
  caches : Option String
  /-- The home directory. -/
  home : Option String

namespace Surroundings

/-- The directory of the user's caches; one that is not absolute does not count. -/
def userCaches? (s : Surroundings) : Option String :=
  match s.caches.filter Path.isAbsolute with
  | some dir => some dir
  | none => (s.home.filter (· != "")).map (Path.join · ".cache")

/-- The directory for cached artifacts: the chosen one unless it is empty. -/
def cacheDirectory (s : Surroundings) : String :=
  match s.chosen.filter (· != "") with
  | some dir => dir
  | none =>
    match s.userCaches? with
    | some dir => Path.join dir "emitcache"
    | none => ".emitcache"

end Surroundings

end CompileCache
