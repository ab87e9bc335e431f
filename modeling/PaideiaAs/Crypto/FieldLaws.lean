-- The field of Curve25519 as a whole: the products and their chains, and the encoding of
-- every element as the one number below `p` that it stands for.
import PaideiaAs.Crypto.Ed25519Curve

namespace paideia_as_crypto.curve

open Bytes Trace FieldElement

/-! ## Products -/

/-- A product stands for `v`, and all its limbs are below 2^52. -/
structure ProductOf (v : ZMod P) (r : FieldElement) : Prop where
  val : r.val = v
  bounded : Bounded (2 ^ 52 - 1) r

theorem productOf_tight {v : ZMod P} {r : FieldElement} (hr : Tight r) (hv : r.val = v) :
    ProductOf v r := ⟨hv, hr.bounded.mono (by norm_num)⟩

/-- An element times its inverse. -/
def FieldElement.quotient (a : FieldElement) : Field FieldElement := do
  let inverse ← a.invert
  a.mul inverse

theorem quotient_spec {a : FieldElement} (ha : Loose a) (h : a.val ≠ 0) :
    Ensures Call.NoLoss a.quotient (ProductOf 1) := by
  unfold FieldElement.quotient
  apply Ensures.bind (invert_spec ha)
  intro i hi
  apply (mul_spec ha hi.loose).mono
  rintro r ⟨hr, hv⟩
  apply productOf_tight hr
  rw [hv, hi.val, mul_comm, ed25519.pow_sub_two h]

/-- On limbs up to 2^54 no sum, product or carry of the products and the chains is lost,
and each result stands for the product or the power. -/
theorem products_are_exact {a b : FieldElement} (ha : Loose a) (hb : Loose b) :
    Ensures Call.NoLoss (a.mul b) (ProductOf (a.val * b.val)) ∧
      Ensures Call.NoLoss a.square (ProductOf (a.val ^ 2)) ∧
      a.square.value.val = (a.mul a).value.val ∧
      Ensures Call.NoLoss a.mul_a24 (ProductOf (121665 * a.val)) ∧
      Ensures Call.NoLoss a.invert (ProductOf (a.val ^ (P - 2))) ∧
      (a.val ≠ 0 → Ensures Call.NoLoss a.quotient (ProductOf 1)) ∧
      Ensures Call.NoLoss a.fe_pow_p_minus_5_over_8 (ProductOf (a.val ^ ((P - 5) / 8))) := by
  have hsq := square_spec ha
  refine ⟨?_, ?_, ?_, ?_, ?_, quotient_spec ha, ?_⟩
  · exact (mul_spec ha hb).mono fun r h => productOf_tight h.1 h.2
  · apply hsq.mono
    rintro r ⟨hr, hv⟩
    rw [pow_two]
    exact productOf_tight hr hv
  · rw [hsq.2.2, (mul_spec ha ha).2.2]
  · exact (mul_a24_spec ha).mono fun r h => productOf_tight h.1 h.2
  · exact (invert_spec ha).mono fun r h => productOf_tight h.tight h.val
  · exact (fe_pow_p_minus_5_over_8_spec ha).mono fun r h => productOf_tight h.tight h.val

theorem products_of_one :
    Ensures Call.NoLoss ONE.quotient (ProductOf 1) :=
  (products_are_exact ed25519.tight_one.loose ed25519.tight_one.loose).2.2.2.2.2.1
    (ed25519.val_one ▸ one_ne_zero)

theorem value_mod {a : FieldElement} : a.val.val = a.value % P := ZMod.val_natCast P a.value

/-- The bytes of an element are the number below `p` that it is congruent to, and what is
read from any bytes is written back without bit 255 and modulo `p`. -/
theorem to_bytes_is_canonical :
    (∀ a, Loose a → a.to_bytes.1 = le 32 (a.value % P) ∧ ofLe a.to_bytes.1 = a.value % P) ∧
      (∀ a b, Loose a → Loose b → (a.to_bytes = b.to_bytes ↔ a.value % P = b.value % P)) ∧
      ∀ s : Bytes32, ofLe (from_bytes s).to_bytes.1 = ofLe s.1 % 2 ^ 255 % P := by
  have hle : ∀ a, Loose a → ofLe a.to_bytes.1 = a.value % P := by
    intro a ha
    rw [ed25519.ofLe_to_bytes ha, value_mod]
  refine ⟨?_, ?_, ?_⟩
  · intro a ha
    refine ⟨?_, hle a ha⟩
    rw [to_bytes_spec ha, value_mod]
  · intro a b ha hb
    rw [← hle a ha, ← hle b hb]
    constructor
    · intro h
      rw [h]
    · intro h
      apply Subtype.ext
      rw [← le_ofLe_32 a.to_bytes, ← le_ofLe_32 b.to_bytes, h]
  · intro s
    rw [hle _ (from_bytes_tight s).loose, from_bytes_value]

end paideia_as_crypto.curve
