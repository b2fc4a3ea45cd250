import CompileCache.Cache.Entry

/-!
# Disk — a tree of directories, files and links

* `Node`, `Disk`: the tree. Its directories list their entries by name, in ascending order.
* `Disk.get?`, `Disk.put`, `Disk.erase`: the node at the end of a way of names from the root.
* `Node.Tidy`: every directory is in order and names its entries by `isName`; a field of `Disk`.
-/

namespace CompileCache

/-- What a file holds. -/
inductive Body where
  | bytes (b : ByteArray)
  /-- The stored form of an entry, which is no text. -/
  | entry (e : Entry)

/-- A file, a link to another path, or a directory with its entries by name. -/
inductive Node where
  | file (b : Body)
  | link (target : String)
  | dir (entries : List (String × Node))

namespace Node

instance : Inhabited Node := ⟨.dir []⟩

/-- Whether a text can name an entry. -/
def isName (s : String) : Bool := s != "" && s != "." && s != ".." && !s.toList.contains '/'

/-- All directories in order, with entries that have proper names. -/
inductive Tidy : Node → Prop
  | file (b : Body) : Tidy (.file b)
  | link (target : String) : Tidy (.link target)
  | dir {entries : List (String × Node)} (sorted : entries.Pairwise fun a b => a.1 < b.1)
      (names : ∀ e ∈ entries, isName e.1 = true) (nodes : ∀ e ∈ entries, Tidy e.2) :
      Tidy (.dir entries)

theorem Tidy.nil : Tidy (.dir []) := .dir .nil (by simp) (by simp)

/-- The node at the end of a way of names. -/
def get? : Node → List String → Option Node
  | node, [] => some node
  | .dir entries, n :: ns => (KeyMap.lookup n entries).bind (get? · ns)
  | _, _ :: _ => none

theorem get?_cons (entries : List (String × Node)) (n : String) (ns : List String) :
    (Node.dir entries).get? (n :: ns) = (KeyMap.lookup n entries).bind (·.get? ns) := by
  rw [get?]

/-- Entries with a node put at the end of a way; all directories on the way have to be there. -/
def putIn (x : Node) : List String → List (String × Node) → List (String × Node)
  | [], entries => entries
  | [n], entries => if isName n then KeyMap.insertSorted n x entries else entries
  | n :: ns, entries =>
    match KeyMap.lookup n entries with
    | some (.dir sub) =>
      if isName n then KeyMap.insertSorted n (.dir (putIn x ns sub)) entries else entries
    | _ => entries

/-- Entries without the node at the end of a way. -/
def eraseIn : List String → List (String × Node) → List (String × Node)
  | [], _ => []
  | [n], entries => entries.filter fun e => e.1 != n
  | n :: ns, entries =>
    match KeyMap.lookup n entries with
    | some (.dir sub) =>
      if isName n then KeyMap.insertSorted n (.dir (eraseIn ns sub)) entries else entries
    | _ => entries

theorem Tidy.insertSorted {n : String} {x : Node} {entries : List (String × Node)}
    (h : Tidy (.dir entries)) (hn : isName n = true) (hx : Tidy x) :
    Tidy (.dir (KeyMap.insertSorted n x entries)) := by
  cases h with
  | dir sorted names nodes =>
    refine .dir (KeyMap.pairwise_insertSorted n x sorted) (fun e he => ?_) fun e he => ?_
    · rcases KeyMap.mem_insertSorted he with rfl | he
      · exact hn
      · exact names e he
    · rcases KeyMap.mem_insertSorted he with rfl | he
      · exact hx
      · exact nodes e he

theorem Tidy.of_lookup {n : String} {x : Node} {entries : List (String × Node)}
    (h : Tidy (.dir entries)) (hx : KeyMap.lookup n entries = some x) : Tidy x := by
  cases h with
  | dir sorted _ nodes => exact nodes (n, x) ((KeyMap.lookup_eq_some_iff sorted).1 hx)

theorem tidy_putIn {x : Node} (hx : Tidy x) (ns : List String) {entries : List (String × Node)}
    (h : Tidy (.dir entries)) : Tidy (.dir (putIn x ns entries)) := by
  fun_induction Node.putIn x ns entries with
  | case1 => exact h
  | case2 entries n hn => exact h.insertSorted hn hx
  | case3 => exact h
  | case4 entries n ns _ sub hs hn ih => exact h.insertSorted hn (ih (h.of_lookup hs))
  | case5 => exact h
  | case6 => exact h

theorem Tidy.filter {entries : List (String × Node)} (h : Tidy (.dir entries))
    (p : String × Node → Bool) : Tidy (.dir (entries.filter p)) := by
  cases h with
  | dir sorted names nodes =>
    exact .dir (sorted.filter p) (fun e he => names e (List.mem_filter.1 he).1)
      fun e he => nodes e (List.mem_filter.1 he).1

theorem tidy_eraseIn (ns : List String) {entries : List (String × Node)}
    (h : Tidy (.dir entries)) : Tidy (.dir (eraseIn ns entries)) := by
  fun_induction Node.eraseIn ns entries with
  | case1 => exact .nil
  | case2 entries n => exact h.filter _
  | case3 entries n ns _ sub hs hn ih => exact h.insertSorted hn (ih (h.of_lookup hs))
  | case4 => exact h
  | case5 => exact h

end Node

/-- The root directory of a tree. -/
structure Disk where
  entries : List (String × Node)
  tidy : Node.Tidy (.dir entries)

namespace Disk

/-- The disk without any entry. -/
def empty : Disk := ⟨[], .nil⟩

instance : Inhabited Disk := ⟨empty⟩

/-- The node at the end of a way of names from the root. -/
def get? (d : Disk) (names : List String) : Option Node := (Node.dir d.entries).get? names

/-- Puts a node at the end of a way, in the stead of what is there. -/
def put (d : Disk) (names : List String) (x : Node) (hx : x.Tidy) : Disk :=
  ⟨Node.putIn x names d.entries, Node.tidy_putIn hx names d.tidy⟩

/-- Puts a file at the end of a way. -/
def putFile (d : Disk) (names : List String) (b : Body) : Disk := d.put names (.file b) (.file b)

/-- Puts a link at the end of a way. -/
def putLink (d : Disk) (names : List String) (target : String) : Disk :=
  d.put names (.link target) (.link target)

/-- Puts an empty directory at the end of a way. -/
def putDir (d : Disk) (names : List String) : Disk := d.put names (.dir []) .nil

/-- Removes the node at the end of a way; the root loses all entries. -/
def erase (d : Disk) (names : List String) : Disk :=
  ⟨Node.eraseIn names d.entries, Node.tidy_eraseIn names d.tidy⟩

end Disk

end CompileCache
