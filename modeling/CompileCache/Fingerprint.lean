import CompileCache.Digest.Basic
import CompileCache.Options.Basic

/-!
# Fingerprint — what a cached artifact is found by

* `Fingerprint.keyBytes`, `Fingerprint.bytes`: the bytes that a key is the digest of: the hash of
  the content, the options and the name of the module, each with its length ahead of it.
* `Fingerprint.ofText`, `Fingerprint.of`: the fingerprint of a content.
* `snippetPath`: the path of a snippet without one.
-/

namespace CompileCache

/-- What a cached artifact is found by: a key, and all that the key stands for. -/
structure Fingerprint where
  key : String
  contentHash : String
  options : String
  moduleName : Option String
deriving DecidableEq

namespace Fingerprint

/-- The eight bytes of a length, the low one first. -/
def lengthBytes (n : Nat) : List UInt8 := (List.range 8).map fun i => (n >>> (8 * i)).toUInt8

/-- The bytes of a text behind their number. -/
def framed (s : String) : List UInt8 := lengthBytes s.utf8ByteSize ++ s.toUTF8.toList

/-- The bytes of an optional text: a mark for presence, then the text. -/
def framedOption : Option String → List UInt8
  | none => [0]
  | some s => 1 :: framed s

/-- The bytes that a key is the digest of. -/
def keyBytes (contentHash options : String) (moduleName : Option String) : List UInt8 :=
  framed contentHash ++ framed options ++ framedOption moduleName

/-- The bytes that the key of a fingerprint has to be the digest of. -/
def bytes (fp : Fingerprint) : ByteArray :=
  ⟨(keyBytes fp.contentHash fp.options fp.moduleName).toArray⟩

variable (d : Digest)

/-- The fingerprint of a content under options given by their text. -/
def ofText (content options : String) (moduleName : Option String) : Fingerprint :=
  let contentHash := d.ofText content
  ⟨d.hex ⟨(keyBytes contentHash options moduleName).toArray⟩, contentHash, options, moduleName⟩

/-- **The fingerprint of a content.** -/
def of (content : String) (options : EmitOptions) (moduleName : Option String) : Fingerprint :=
  ofText d content options.text moduleName

end Fingerprint

/-- The path of a snippet: the hash of its content, with the extension of its syntax. -/
def snippetPath (d : Digest) (content : String) (o : Options) : String :=
  d.ofText content ++ "." ++ o.flavor.extension

end CompileCache
