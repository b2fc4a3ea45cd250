import CompileCache.Disk.Files
import CompileCache.Options.Check

/-!
# File — settings kept in a file

* `Options.ofFile`: the settings that a file holds, checked as by `Options.ofText`.
-/

namespace CompileCache

/-- The settings that a file holds. -/
def Options.ofFile (d : Disk) (path : String) : Except ConfigError Options :=
  match d.readText path with
  | .error f => .error (.unreadable f.message)
  | .ok s => ofText s

end CompileCache
