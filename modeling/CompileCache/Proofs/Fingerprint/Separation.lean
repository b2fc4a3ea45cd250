import CompileCache.Proofs.Digest.Plain
import CompileCache.Proofs.Fingerprint.Keys

/-!
# Separation — which requests share a key

* `Options.emit_eq_iff`: the seven settings that emission can depend on.
* `Fingerprint.keyBytes_eq_iff`, `Fingerprint.key_eq_iff`: what equal bytes, and equal keys, say.
* **`Fingerprint.keys_separate`**: two requests share a key exactly if they have the same content,
  the same seven settings and the same module name.
-/

namespace CompileCache

/-- The settings that emission can depend on leave out the patterns, the architecture and the use of
the cache. -/
theorem Options.emit_eq_iff {o o' : Options} : o.emit = o'.emit ↔
    o.target = o'.target ∧ o.module = o'.module ∧ o.jsx = o'.jsx ∧ o.strict = o'.strict ∧
      o.declaration = o'.declaration ∧ o.sourceMap = o'.sourceMap ∧ o.types = o'.types := by
  unfold Options.emit
  rw [EmitOptions.mk.injEq]

namespace Fingerprint

variable {d : Digest} {c c' : String} {m m' : Option String}

/-- **Equal bytes of keys have equal parts, and the other way round.** -/
theorem keyBytes_eq_iff {o o' : EmitOptions} (hs : (of d c o m).Sized)
    (hs' : (of d c' o' m').Sized) :
    keyBytes (d.ofText c) o.text m = keyBytes (d.ofText c') o'.text m' ↔
      d.ofText c = d.ofText c' ∧ o = o' ∧ m = m' := by
  constructor
  · intro h
    obtain ⟨hc, ho, hm⟩ := keyBytes_inj hs.contentHash hs'.contentHash hs.options hs'.options
      hs.moduleName hs'.moduleName h
    exact ⟨hc, EmitOptions.text_inj ho, hm⟩
  · rintro ⟨hc, rfl, rfl⟩
    rw [hc]

/-- **Keys are equal exactly if the requests are**, as far as emission can depend on them. -/
theorem key_eq_iff {o o' : EmitOptions} (hs : (of d c o m).Sized) (hs' : (of d c' o' m').Sized)
    (hcontents : d.Separates c.toUTF8 c'.toUTF8)
    (hbytes : d.Separates ⟨(keyBytes (d.ofText c) o.text m).toArray⟩
      ⟨(keyBytes (d.ofText c') o'.text m').toArray⟩) :
    (of d c o m).key = (of d c' o' m').key ↔ c = c' ∧ o = o' ∧ m = m' := by
  constructor
  · intro h
    have hb := congrArg (fun b : ByteArray => b.data.toList) (hbytes h)
    obtain ⟨hc, ho, hm⟩ := (keyBytes_eq_iff hs hs').1 hb
    exact ⟨String.toByteArray_inj.1 (hcontents hc), ho, hm⟩
  · rintro ⟨rfl, rfl, rfl⟩
    rfl

/-- **The key separates exactly the right requests.** The bytes that it is the digest of are equal
exactly if the hashes of the contents, the settings for emission and the module names are. Where the
digest has no collision, the keys are equal exactly if the contents, the seven settings and the
module names are, whatever the architecture, the patterns and the use of the cache. -/
theorem keys_separate (d : Digest) (c c' : String) (o o' : Options) (m m' : Option String)
    (hs : (of d c o.emit m).Sized) (hs' : (of d c' o'.emit m').Sized) :
    (keyBytes (d.ofText c) o.emit.text m = keyBytes (d.ofText c') o'.emit.text m' ↔
      d.ofText c = d.ofText c' ∧ o.emit = o'.emit ∧ m = m') ∧
    (d.Separates c.toUTF8 c'.toUTF8 →
      d.Separates ⟨(keyBytes (d.ofText c) o.emit.text m).toArray⟩
        ⟨(keyBytes (d.ofText c') o'.emit.text m').toArray⟩ →
      ((of d c o.emit m).key = (of d c' o'.emit m').key ↔
        c = c' ∧
        (o.target = o'.target ∧ o.module = o'.module ∧ o.jsx = o'.jsx ∧ o.strict = o'.strict ∧
          o.declaration = o'.declaration ∧ o.sourceMap = o'.sourceMap ∧ o.types = o'.types) ∧
        m = m')) := by
  refine ⟨keyBytes_eq_iff hs hs', fun hcontents hbytes => ?_⟩
  rw [key_eq_iff hs hs' hcontents hbytes, Options.emit_eq_iff]

/-! ## Settings that are left out, and names that are absent -/

/-- One type root whose name has a quote and a comma. -/
def quoting : Options := { types := ["a\",\"b"] }

/-- The same settings for emission on another architecture, without the cache. -/
def elsewhere : Options := { quoting with arch := "web", useCache := false, exclude := ["**"] }

/-- The two type roots that the quote and the comma look like. -/
def twoRoots : Options := { types := ["a", "b"] }

/-- Requests that differ in the architecture alone share a key. An absent module name is none of the
empty ones, and a quoted comma does not set two type roots apart. -/
theorem keys_separate_quoting :
    (of .letters "x" quoting.emit none).Sized ∧
    (of .letters "x" elsewhere.emit none).Sized ∧
    (of .letters "x" elsewhere.emit (some "")).Sized ∧
    (of .letters "x" twoRoots.emit none).Sized ∧
    (of .letters "x" quoting.emit none).key = (of .letters "x" elsewhere.emit none).key ∧
    (of .letters "x" quoting.emit none).key ≠ (of .letters "x" elsewhere.emit (some "")).key ∧
    (of .letters "x" quoting.emit none).key ≠ (of .letters "x" twoRoots.emit none).key := by
  have hquoting : (of .letters "x" quoting.emit none).Sized :=
    ⟨by decide +kernel, by decide +kernel, nofun⟩
  have helsewhere : (of .letters "x" elsewhere.emit none).Sized :=
    ⟨by decide +kernel, by decide +kernel, nofun⟩
  have hempty : (of .letters "x" elsewhere.emit (some "")).Sized :=
    ⟨by decide +kernel, by decide +kernel, fun s hs => by cases hs; decide⟩
  have htwo : (of .letters "x" twoRoots.emit none).Sized :=
    ⟨by decide +kernel, by decide +kernel, nofun⟩
  have separates := (Digest.letters_faithful).separates
  refine ⟨hquoting, helsewhere, hempty, htwo, ?_, fun h => ?_, fun h => ?_⟩
  · exact ((keys_separate .letters "x" "x" quoting elsewhere none none hquoting helsewhere).2
      (separates _ _) (separates _ _)).2 ⟨rfl, by decide, rfl⟩
  · have hsame := ((keys_separate .letters "x" "x" quoting elsewhere none (some "") hquoting
      hempty).2 (separates _ _) (separates _ _)).1 h
    exact absurd hsame.2.2 (by decide)
  · have hsame := ((keys_separate .letters "x" "x" quoting twoRoots none none hquoting htwo).2
      (separates _ _) (separates _ _)).1 h
    exact absurd hsame.2.1 (by decide)

end Fingerprint

end CompileCache
