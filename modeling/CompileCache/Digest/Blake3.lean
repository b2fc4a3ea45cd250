import CompileCache.Digest.Basic
import CompileCache.Digest.Hex

/-!
# Blake3 — the tree hash that names contents

* `Column.mix`, `State.round`, `compress`: the permutation of sixteen words in four columns.
* `Node`: a vertex of the hash tree before its compression; `chunk` and `parent` make one.
* `tree`: a range of bytes as a binary tree of chunks of 1024 bytes.
* **`Digest.blake3`**: the first 256 bits of the root, in hexadecimal.
-/

namespace CompileCache.Blake3

/-! ## The permutation -/

/-- Eight words: the chaining value of a vertex. -/
abbrev Chain := Vector UInt32 8

/-- Sixteen words: the message of one compression. -/
abbrev Block := Vector UInt32 16

/-- The fractional parts of the square roots of the first eight primes. -/
def start : Chain :=
  #v[0x6A09E667, 0xBB67AE85, 0x3C6EF372, 0xA54FF53A, 0x510E527F, 0x9B05688C, 0x1F83D9AB,
    0x5BE0CD19]

/-- Rotation to the right by `n` places, for `0 < n < 32`. -/
def rotate (x n : UInt32) : UInt32 := x >>> n ||| x <<< (32 - n)

/-- Four words that are mixed with one another. -/
structure Column where
  a : UInt32
  b : UInt32
  c : UInt32
  d : UInt32

/-- Mixes two message words into four words. -/
def Column.mix (q : Column) (x y : UInt32) : Column :=
  let a := q.a + q.b + x
  let d := rotate (q.d ^^^ a) 16
  let c := q.c + d
  let b := rotate (q.b ^^^ c) 12
  let a := a + b + y
  let d := rotate (d ^^^ a) 8
  let c := c + d
  let b := rotate (b ^^^ c) 7
  ⟨a, b, c, d⟩

/-- Sixteen words in four columns. -/
structure State where
  c0 : Column
  c1 : Column
  c2 : Column
  c3 : Column

/-- Mixes the columns, then the diagonals, with the sixteen words of a message. -/
def State.round (s : State) (m : Block) : State :=
  let p := s.c0.mix m[0] m[1]
  let q := s.c1.mix m[2] m[3]
  let r := s.c2.mix m[4] m[5]
  let t := s.c3.mix m[6] m[7]
  let e := Column.mix ⟨p.a, q.b, r.c, t.d⟩ m[8] m[9]
  let f := Column.mix ⟨q.a, r.b, t.c, p.d⟩ m[10] m[11]
  let g := Column.mix ⟨r.a, t.b, p.c, q.d⟩ m[12] m[13]
  let h := Column.mix ⟨t.a, p.b, q.c, r.d⟩ m[14] m[15]
  ⟨⟨e.a, h.b, g.c, f.d⟩, ⟨f.a, e.b, h.c, g.d⟩, ⟨g.a, f.b, e.c, h.d⟩, ⟨h.a, g.b, f.c, e.d⟩⟩

/-- The order in which the next round takes the words of the message. -/
def permute (m : Block) : Block :=
  #v[m[2], m[6], m[3], m[10], m[7], m[0], m[4], m[13], m[1], m[11], m[12], m[5], m[9], m[14],
    m[15], m[8]]

/-- `n` rounds, the message permuted between two of them. -/
def rounds : Nat → State → Block → State
  | 0, s, _ => s
  | n + 1, s, m => rounds n (s.round m) (permute m)

/-! ## Vertices of the tree -/

/-- A vertex of the hash tree: what is compressed to give its chaining value. -/
structure Node where
  chain : Chain
  block : Block
  counter : UInt64
  length : UInt32
  flags : UInt32

/-- Marks the first block of a chunk. -/
def chunkStart : UInt32 := 1
/-- Marks the last block of a chunk. -/
def chunkEnd : UInt32 := 2
/-- Marks a vertex with two children. -/
def parentFlag : UInt32 := 4
/-- Marks the root. -/
def rootFlag : UInt32 := 8

/-- The eight words that a vertex is compressed to. -/
def Node.compress (n : Node) : Chain :=
  let h := n.chain
  let s : State :=
    ⟨⟨h[0], h[4], start[0], n.counter.toUInt32⟩,
      ⟨h[1], h[5], start[1], (n.counter >>> 32).toUInt32⟩,
      ⟨h[2], h[6], start[2], n.length⟩, ⟨h[3], h[7], start[3], n.flags⟩⟩
  let s := rounds 7 s n.block
  #v[s.c0.a ^^^ s.c0.c, s.c1.a ^^^ s.c1.c, s.c2.a ^^^ s.c2.c, s.c3.a ^^^ s.c3.c,
    s.c0.b ^^^ s.c0.d, s.c1.b ^^^ s.c1.d, s.c2.b ^^^ s.c2.d, s.c3.b ^^^ s.c3.d]

/-- The vertex above two chaining values. -/
def parent (left right : Chain) : Node :=
  ⟨start, left ++ right, 0, 64, parentFlag⟩

/-! ## Bytes as words -/

/-- The byte at a place, zero from `stop` on. -/
def byteAt (bs : ByteArray) (stop i : Nat) : UInt32 := if i < stop then (bs.get! i).toUInt32 else 0

/-- The little-endian word at a place, zero bytes from `stop` on. -/
def wordAt (bs : ByteArray) (stop i : Nat) : UInt32 :=
  byteAt bs stop i ||| byteAt bs stop (i + 1) <<< 8 ||| byteAt bs stop (i + 2) <<< 16 |||
    byteAt bs stop (i + 3) <<< 24

/-- The block of 64 bytes at a place, zero bytes from `stop` on. -/
def blockAt (bs : ByteArray) (stop i : Nat) : Block :=
  Vector.ofFn fun k => wordAt bs stop (i + 4 * k)

/-- The bytes of a word, the low one first. -/
def bytesOfWord (w : UInt32) : List UInt8 :=
  [w.toUInt8, (w >>> 8).toUInt8, (w >>> 16).toUInt8, (w >>> 24).toUInt8]

/-! ## The tree -/

/-- The last vertex of the chunk with number `counter` whose remaining bytes are those from `i`
to `stop`, given the chaining value so far and the mark of the next block. -/
def chunkFrom (bs : ByteArray) (counter : UInt64) (stop i : Nat) (h : Chain) (mark : UInt32) :
    Node :=
  if 64 < stop - i then
    chunkFrom bs counter stop (i + 64) (Node.compress ⟨h, blockAt bs stop i, counter, 64, mark⟩) 0
  else ⟨h, blockAt bs stop i, counter, (stop - i).toUInt32, mark ||| chunkEnd⟩
termination_by stop - i

/-- The vertex of a chunk: the bytes from `i` to `stop`, at most 1024. -/
def chunk (bs : ByteArray) (i stop : Nat) : Node :=
  chunkFrom bs (i / 1024).toUInt64 stop i start chunkStart

/-- How many of `n` bytes go to the left: the largest power of two below `n`. -/
def leftSize (n : Nat) : Nat := 1 <<< (n - 1).log2

theorem leftSize_pos (n : Nat) : 0 < leftSize n := by
  rw [leftSize, Nat.one_shiftLeft]
  exact Nat.two_pow_pos _

theorem leftSize_lt {n : Nat} (h : 1 < n) : leftSize n < n := by
  have := Nat.log2_self_le (n := n - 1) (by omega)
  rw [leftSize, Nat.one_shiftLeft]
  omega

/-- The vertex of the bytes from `i` to `stop`. -/
def tree (bs : ByteArray) (i stop : Nat) : Node :=
  if 1024 < stop - i then
    let mid := i + leftSize (stop - i)
    parent (tree bs i mid).compress (tree bs mid stop).compress
  else chunk bs i stop
termination_by stop - i
decreasing_by
  all_goals
    have := leftSize_lt (n := stop - i) (by omega)
    have := leftSize_pos (stop - i)
    omega

/-- The 32 bytes of the hash. -/
def hash (bs : ByteArray) : List UInt8 :=
  let root := tree bs 0 bs.size
  (Node.compress { root with flags := root.flags ||| rootFlag }).toList.flatMap bytesOfWord

theorem length_hash (bs : ByteArray) : (hash bs).length = 32 := by
  have hword : ∀ w : UInt32, (bytesOfWord w).length = 4 := fun _ => rfl
  simp [hash, List.length_flatMap, hword, List.map_const']

end Blake3

/-- **The digest that names contents:** BLAKE3, written in hexadecimal. -/
def Digest.blake3 : Digest := ⟨fun bs => String.ofList (Hex.ofBytes (Blake3.hash bs))⟩

end CompileCache
