import Viracochan.Text

/-!
# Viracochan: the digest

`crypto/sha256` is not modelled bit by bit.  Every function of the model that
hashes takes the digest as a parameter `sha256 : String → List UInt8` (the bytes
hashed are the UTF-8 text given), and the statements that the specification
makes "with SHA-256 treated as collision-free" assume `Function.Injective sha256`.

`codePointDigest` is an injective function of that type (three bytes per code
point), used to instantiate such statements on concrete inputs.
-/

namespace Viracochan

/-- Three bytes per code point, most significant first. -/
def codePointBytes (c : Char) : List UInt8 :=
  [(c.toNat / 65536).toUInt8, (c.toNat / 256 % 256).toUInt8, (c.toNat % 256).toUInt8]

/-- An injective digest: the code points of the text, three bytes each. -/
def codePointDigest (s : String) : List UInt8 :=
  s.data.flatMap codePointBytes

theorem codePointBytes_injective {a b : Char} (h : codePointBytes a = codePointBytes b) :
    a = b := by
  have ha : a.toNat < 0x110000 := a.valid.elim (fun h => by simp [Char.toNat]; omega)
    (fun h => by simp [Char.toNat]; omega)
  have hb : b.toNat < 0x110000 := b.valid.elim (fun h => by simp [Char.toNat]; omega)
    (fun h => by simp [Char.toNat]; omega)
  simp only [codePointBytes, List.cons.injEq, and_true] at h
  obtain ⟨h1, h2, h3⟩ := h
  have e1 := congrArg UInt8.toNat h1
  have e2 := congrArg UInt8.toNat h2
  have e3 := congrArg UInt8.toNat h3
  simp only [Nat.toUInt8, UInt8.toNat, UInt8.ofNat, BitVec.toNat_ofNat] at e1 e2 e3
  apply Char.ext
  apply UInt32.toNat.inj
  change a.toNat = b.toNat
  omega

theorem codePointDigest_injective : Function.Injective codePointDigest := by
  intro a b h
  obtain ⟨a⟩ := a
  obtain ⟨b⟩ := b
  simp only [codePointDigest] at h
  congr 1
  induction a generalizing b with
  | nil =>
      cases b with
      | nil => rfl
      | cons y ys => simp [codePointBytes] at h
  | cons x xs ih =>
      cases b with
      | nil => simp [codePointBytes] at h
      | cons y ys =>
          simp only [List.flatMap_cons, codePointBytes, List.cons_append, List.nil_append,
            List.cons.injEq] at h
          obtain ⟨h1, h2, h3, h4⟩ := h
          obtain rfl : x = y := codePointBytes_injective (by simp [codePointBytes, h1, h2, h3])
          rw [ih ys h4]

theorem codePointDigest_ne_nil {s : String} (h : s.data ≠ []) : codePointDigest s ≠ [] := by
  obtain ⟨x, xs, hx⟩ := List.exists_cons_of_ne_nil h
  simp [codePointDigest, hx, codePointBytes]

end Viracochan
