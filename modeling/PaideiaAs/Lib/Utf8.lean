-- UTF-8 by its four forms: the bytes of a scalar value, and which bytes are those of
-- one. The encoder itself is the one of Lean's strings.
import Mathlib.Data.List.Basic

namespace Utf8

/-- The bytes of a text. -/
def encode (cs : List Char) : List UInt8 := cs.flatMap String.utf8EncodeChar

/-- The bytes are those of some text. -/
def WellFormed (bytes : List UInt8) : Prop := ∃ cs, encode cs = bytes

/-- The bytes begin with those of `c`. -/
def Begins (c : Char) (bytes : List UInt8) : Prop := String.utf8EncodeChar c <+: bytes

@[simp] theorem encode_nil : encode [] = [] := rfl

variable (c : Char)

@[simp] theorem encode_cons (cs : List Char) :
    encode (c :: cs) = String.utf8EncodeChar c ++ encode cs := rfl

theorem encode_append (cs ds : List Char) : encode (cs ++ ds) = encode cs ++ encode ds := by
  simp [encode]

theorem encodeChar_ne_nil : String.utf8EncodeChar c ≠ [] := by
  have := Char.utf8Size_pos c
  intro h
  rw [← String.length_utf8EncodeChar, h] at this
  cases this

/-! ## The four forms -/

/-- A byte that may follow a lead byte. -/
def Tail (b : UInt8) : Prop := 0x80 ≤ b.toNat ∧ b.toNat ≤ 0xBF

/-- A scalar value is not a surrogate, and not above `10FFFF`. -/
theorem scalar : c.toNat < 0xD800 ∨ (0xDFFF < c.toNat ∧ c.toNat < 0x110000) := c.valid

theorem encodes_one (a : UInt8) :
    String.utf8EncodeChar c = [a] ↔ a.toNat ≤ 0x7F ∧ c.toNat = a.toNat := by
  have hc := scalar c
  have ha := a.toNat_lt
  have hv : c.val.toNat = c.toNat := rfl
  unfold String.utf8EncodeChar
  simp only [hv]
  split_ifs <;> simp [← UInt8.toNat_inj] <;> omega

theorem encodes_two (a b : UInt8) : String.utf8EncodeChar c = [a, b] ↔
      0xC2 ≤ a.toNat ∧ a.toNat ≤ 0xDF ∧ Tail b ∧
        c.toNat = a.toNat % 32 * 64 + b.toNat % 64 := by
  have hc := scalar c
  have ha := a.toNat_lt
  have hb := b.toNat_lt
  have hv : c.val.toNat = c.toNat := rfl
  unfold String.utf8EncodeChar Tail
  simp only [hv]
  split_ifs <;> simp [← UInt8.toNat_inj] <;> omega

theorem encodes_three (a b d : UInt8) : String.utf8EncodeChar c = [a, b, d] ↔
      0xE0 ≤ a.toNat ∧ a.toNat ≤ 0xEF ∧ Tail b ∧ Tail d ∧
        (a.toNat = 0xE0 → 0xA0 ≤ b.toNat) ∧ (a.toNat = 0xED → b.toNat ≤ 0x9F) ∧
        c.toNat = a.toNat % 16 * 4096 + b.toNat % 64 * 64 + d.toNat % 64 := by
  have hc := scalar c
  have ha := a.toNat_lt
  have hb := b.toNat_lt
  have hd := d.toNat_lt
  have hv : c.val.toNat = c.toNat := rfl
  unfold String.utf8EncodeChar Tail
  simp only [hv]
  split_ifs
  next => simp; omega
  next => simp; omega
  next =>
    simp [← UInt8.toNat_inj]
    constructor
    · rintro ⟨h1, h2, h3⟩
      refine ⟨?_, ?_, ?_, ?_, ?_, ?_, ?_⟩ <;> omega
    · rintro ⟨h1, h2, h3, h4, h5, h6, h7⟩
      refine ⟨?_, ?_, ?_⟩ <;> omega
  next => simp; omega

theorem encodes_four (a b d e : UInt8) : String.utf8EncodeChar c = [a, b, d, e] ↔
      0xF0 ≤ a.toNat ∧ a.toNat ≤ 0xF4 ∧ Tail b ∧ Tail d ∧ Tail e ∧
        (a.toNat = 0xF0 → 0x90 ≤ b.toNat) ∧ (a.toNat = 0xF4 → b.toNat ≤ 0x8F) ∧
        c.toNat = a.toNat % 8 * 262144 + b.toNat % 64 * 4096 + d.toNat % 64 * 64 +
          e.toNat % 64 := by
  have hc := scalar c
  have ha := a.toNat_lt
  have hb := b.toNat_lt
  have hd := d.toNat_lt
  have he := e.toNat_lt
  have hv : c.val.toNat = c.toNat := rfl
  unfold String.utf8EncodeChar Tail
  simp only [hv]
  split_ifs
  next => simp; omega
  next => simp; omega
  next => simp; omega
  next =>
    simp [← UInt8.toNat_inj]
    constructor
    · rintro ⟨h1, h2, h3, h4⟩
      refine ⟨?_, ?_, ?_, ?_, ?_, ?_, ?_, ?_⟩ <;> omega
    · rintro ⟨h1, h2, h3, h4, h5, h6, h7, h8⟩
      refine ⟨?_, ?_, ?_, ?_⟩ <;> omega

theorem forms : (∃ a, String.utf8EncodeChar c = [a]) ∨ (∃ a b, String.utf8EncodeChar c = [a, b]) ∨
      (∃ a b d, String.utf8EncodeChar c = [a, b, d]) ∨
      ∃ a b d e, String.utf8EncodeChar c = [a, b, d, e] := by
  unfold String.utf8EncodeChar
  simp only
  split_ifs
  · exact .inl ⟨_, rfl⟩
  · exact .inr (.inl ⟨_, _, rfl⟩)
  · exact .inr (.inr (.inl ⟨_, _, _, rfl⟩))
  · exact .inr (.inr (.inr ⟨_, _, _, _, rfl⟩))

end Utf8
