import CompileCache.Json.Basic

/-!
# Decode — typed readings of values

* `text?`, `bool?`, `word64?`, `word32?`, `list?`, `nullable?`, `map?`: the plain readings.
* `oneOf?`: a name out of a table, alone or as the only member of an object, with value `null`.
* `Record`: the fields of a record, given by name in any order or by position.
* `Json.record?`: the fields that a value gives. Unknown names are skipped, a name given twice is
  refused, and so are surplus positions.
-/

namespace CompileCache.Json

variable {α : Type}

/-- A text. -/
def text? : Json → Option String
  | .text s => some s
  | _ => none

/-- A truth value. -/
def bool? : Json → Option Bool
  | .bool b => some b
  | _ => none

/-- A natural number below 2^64. -/
def word64? : Json → Option UInt64
  | .number (.natural n) => some n
  | _ => none

/-- A natural number below 2^32. -/
def word32? : Json → Option UInt32
  | .number (.natural n) => if n.toNat < UInt32.size then some n.toUInt32 else none
  | _ => none

/-- A list whose elements are read by `f`. -/
def list? (f : Json → Option α) : Json → Option (List α)
  | .array items => items.mapM f
  | _ => none

/-- `null`, or what `f` reads. -/
def nullable? (f : Json → Option α) : Json → Option (Option α)
  | .null => some none
  | j => (f j).map some

/-- A member whose value is read by `f`. -/
def member? (f : Json → Option α) (m : String × Json) : Option (String × α) :=
  (f m.2).map fun a => (m.1, a)

/-- A map whose values are read by `f`; of equal keys the last counts. -/
def map? (f : Json → Option α) : Json → Option (KeyMap α)
  | .object members => (members.mapM (member? f)).map KeyMap.ofList
  | _ => none

/-- A value that a table gives to a name. -/
def oneOf? (table : List (String × α)) : Json → Option α
  | .text s => KeyMap.lookup s table
  | .object [(s, .null)] => KeyMap.lookup s table
  | _ => none

/-! ## Records -/

/-- The fields of a record; in the positional form they are given from the first on. -/
structure Record where
  positional : Bool
  fields : List (String × Json)

/-- The members of an object that have one of the names. -/
def knownMembers (names : List String) (members : List (String × Json)) : List (String × Json) :=
  members.filter fun m => names.contains m.1

/-- The fields that a value gives for the names of a record. -/
def record? (names : List String) : Json → Option Record
  | .object members =>
    let known := knownMembers names members
    if (known.map (·.1)).Nodup then some ⟨false, known⟩ else none
  | .array items => if items.length ≤ names.length then some ⟨true, names.zip items⟩ else none
  | _ => none

namespace Record

/-- The value given for a field. -/
def get? (r : Record) (name : String) : Option Json := KeyMap.lookup name r.fields

/-- A field that has to be given. -/
def required (r : Record) (name : String) (f : Json → Option α) : Option α := (r.get? name).bind f

/-- A field with a value that stands in for it. -/
def default (r : Record) (name : String) (a : α) (f : Json → Option α) : Option α :=
  match r.get? name with
  | none => some a
  | some j => f j

/-- A field that may be absent by name but not by position. -/
def optional (r : Record) (name : String) (f : Json → Option α) : Option (Option α) :=
  match r.get? name with
  | none => if r.positional then none else some none
  | some j => nullable? f j

end Record

end CompileCache.Json
