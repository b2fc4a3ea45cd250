/-!
# Digest — short texts that stand for bytes

* `Digest`: a function from bytes to a text, the parameter of everything that compares contents
  by hash.
* `Digest.Separates`: a digest does not take one byte sequence for another.
* **`Digest.FaithfulOn`**: no two of some byte sequences share a text, and no text of theirs is
  empty. `Digest.Faithful`: this holds of all byte sequences.
* `Digest.ofText_inj`: a digest that separates two texts tells them apart.
-/

namespace CompileCache

/-- A way to name byte sequences by short texts. -/
structure Digest where
  /-- The text that stands for some bytes. -/
  hex : ByteArray → String

namespace Digest

/-- The text that stands for a text, by its UTF-8 bytes. -/
def ofText (d : Digest) (s : String) : String := d.hex s.toUTF8

/-- A digest does not give these two byte sequences one text unless they are equal. -/
def Separates (d : Digest) (a b : ByteArray) : Prop := d.hex a = d.hex b → a = b

/-- A digest is faithful on some byte sequences if its texts tell these apart and none is empty. -/
structure FaithfulOn (d : Digest) (K : ByteArray → Prop) : Prop where
  injective : ∀ ⦃a b : ByteArray⦄, K a → K b → d.Separates a b
  nonempty : ∀ ⦃a : ByteArray⦄, K a → d.hex a ≠ ""

/-- A digest is faithful if it is so on all byte sequences, which no digest with texts of one length
can be. -/
abbrev Faithful (d : Digest) : Prop := d.FaithfulOn fun _ => True

variable {d : Digest} {K K' : ByteArray → Prop}

theorem FaithfulOn.mono (h : d.FaithfulOn K) (hk : ∀ b, K' b → K b) : d.FaithfulOn K' where
  injective _ _ ha hb := h.injective (hk _ ha) (hk _ hb)
  nonempty _ ha := h.nonempty (hk _ ha)

theorem Faithful.on (h : d.Faithful) (K : ByteArray → Prop) : d.FaithfulOn K :=
  h.mono fun _ _ => trivial

theorem Faithful.separates (h : d.Faithful) (a b : ByteArray) : d.Separates a b :=
  h.injective trivial trivial

theorem ofText_inj {s t : String} (h : d.Separates s.toUTF8 t.toUTF8)
    (e : d.ofText s = d.ofText t) : s = t := String.toByteArray_inj.1 (h e)

end Digest

end CompileCache
