import CompileCache.KeyMap

/-!
# Json — values as trees

* `Json.Number`: naturals and negative integers of 64 bits, and the binary floats.
* `Json`: a tree whose objects keep their members in written order, duplicates included.
* `Json.sorted`: the same value with members in key order, the last of equal keys counting.
-/

namespace CompileCache

namespace Json

/-- A number of a JSON text. -/
inductive Number where
  /-- A natural number below 2^64. -/
  | natural (n : UInt64)
  /-- The negative integer of this magnitude, at most 2^63. -/
  | negative (magnitude : UInt64)
  /-- The float with these bits. -/
  | float (bits : UInt64)
deriving DecidableEq

end Json

/-- A JSON value. -/
inductive Json where
  | null
  | bool (b : Bool)
  | number (n : Json.Number)
  | text (s : String)
  | array (items : List Json)
  | object (members : List (String × Json))
  /-- A well-written value that denotes nothing: a text with half of a surrogate pair, a number
  beyond every float, an object with such a key. -/
  | void

namespace Json

instance : Inhabited Json := ⟨.null⟩

mutual

/-- The value with the members of every object in key order; of equal keys the last counts. -/
def sorted : Json → Json
  | .array items => .array (sortedItems items)
  | .object members => .object (KeyMap.ofList (sortedMembers members)).entries
  | j => j

/-- `sorted` on every element. -/
def sortedItems : List Json → List Json
  | [] => []
  | j :: rest => j.sorted :: sortedItems rest

/-- `sorted` on the value of every member. -/
def sortedMembers : List (String × Json) → List (String × Json)
  | [] => []
  | (k, j) :: rest => (k, j.sorted) :: sortedMembers rest

end

theorem sorted_text (s : String) : (text s).sorted = text s := by simp [sorted]

theorem sortedItems_eq (items : List Json) : sortedItems items = items.map sorted := by
  induction items with
  | nil => rw [sortedItems, List.map_nil]
  | cons j items ih => rw [sortedItems, ih, List.map_cons]

theorem sortedMembers_eq (members : List (String × Json)) :
    sortedMembers members = members.map fun m => (m.1, m.2.sorted) := by
  induction members with
  | nil => rw [sortedMembers, List.map_nil]
  | cons m members ih => rw [sortedMembers, ih, List.map_cons]

/-- The natural number `n`, which has to be below 2^64. -/
def natural (n : Nat) : Json := .number (.natural n.toUInt64)

/-- A value or `null`. -/
def ofOption {α : Type} (f : α → Json) : Option α → Json
  | none => .null
  | some a => f a

/-- The texts of a list. -/
def ofTexts (l : List String) : Json := .array (l.map .text)

end Json

end CompileCache
