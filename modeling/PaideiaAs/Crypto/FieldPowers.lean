-- The addition chains: inversion as the power p - 2, and the power (p - 5) / 8 that the
-- square roots are taken with.
import PaideiaAs.Crypto.Field25519

namespace paideia_as_crypto.curve

open Trace
open Call (NoLoss)

namespace FieldElement

/-! ## The chains -/

/-- `n` squarings in a row. -/
def squarings : Nat → FieldElement → Field FieldElement
  | 0, t => pure t
  | n + 1, t => do
    let t ← t.square
    squarings n t

/-- The part that both chains share: the powers 2^250 - 1 and 11. -/
def chain_250 (z1 : FieldElement) : Field (FieldElement × FieldElement) := do
  let z2 ← z1.square
  let z4 ← z2.square
  let z8 ← z4.square
  let z9 ← z8.mul z1
  let z11 ← z9.mul z2
  let z22 ← z11.square
  let z_5_0 ← z22.mul z9
  let t ← squarings 5 z_5_0
  let z_10_0 ← t.mul z_5_0
  let t ← squarings 10 z_10_0
  let z_20_0 ← t.mul z_10_0
  let t ← squarings 20 z_20_0
  let z_40_0 ← t.mul z_20_0
  let t ← squarings 10 z_40_0
  let z_50_0 ← t.mul z_10_0
  let t ← squarings 50 z_50_0
  let z_100_0 ← t.mul z_50_0
  let t ← squarings 100 z_100_0
  let z_200_0 ← t.mul z_100_0
  let t ← squarings 50 z_200_0
  let z_250_0 ← t.mul z_50_0
  pure (z_250_0, z11)

def invert (a : FieldElement) : Field FieldElement := do
  let (z_250_0, z11) ← chain_250 a
  let t ← squarings 5 z_250_0
  t.mul z11

def fe_pow_p_minus_5_over_8 (a : FieldElement) : Field FieldElement := do
  let (z_250_0, _) ← chain_250 a
  let t ← squarings 2 z_250_0
  t.mul a

/-! ## What they compute -/

/-- A product that stands for the `n`th power of `v`. -/
structure Power (v : ZMod P) (n : Nat) (a : FieldElement) : Prop where
  tight : Tight a
  val : a.val = v ^ n

variable {v : ZMod P} {n : Nat} {a : FieldElement}

theorem Power.loose (h : Power v n a) : Loose a := h.tight.loose

theorem square_power (h : Power v n a) : Ensures NoLoss a.square (Power v (2 * n)) := by
  apply (square_spec h.loose).mono
  rintro r ⟨hr, hv⟩
  refine ⟨hr, ?_⟩
  rw [hv, h.val, ← pow_add, two_mul]

theorem mul_power {m : Nat} {b : FieldElement} (ha : Power v m a) (hb : Power v n b) :
    Ensures NoLoss (a.mul b) (Power v (m + n)) := by
  apply (mul_spec ha.loose hb.loose).mono
  rintro r ⟨hr, hv⟩
  refine ⟨hr, ?_⟩
  rw [hv, ha.val, hb.val, ← pow_add]

theorem squarings_power (k : Nat) (h : Power v n a) :
    Ensures NoLoss (squarings k a) (Power v (2 ^ k * n)) := by
  induction k generalizing n a with
  | zero =>
    unfold squarings
    apply Ensures.pure
    rwa [pow_zero, one_mul]
  | succ k ih =>
    unfold squarings
    apply Ensures.bind (square_power h)
    intro t ht
    rw [pow_succ, mul_assoc]
    exact ih ht

/-- The first power of an element that is not yet a product. -/
theorem square_loose (ha : Loose a) : Ensures NoLoss a.square (Power a.val 2) := by
  apply (square_spec ha).mono
  rintro r ⟨hr, hv⟩
  refine ⟨hr, ?_⟩
  rw [hv, pow_two]

theorem mul_loose {b : FieldElement} (hb : Loose b) (ha : Power b.val n a) :
    Ensures NoLoss (a.mul b) (Power b.val (n + 1)) := by
  apply (mul_spec ha.loose hb).mono
  rintro r ⟨hr, hv⟩
  refine ⟨hr, ?_⟩
  rw [hv, ha.val, pow_succ]

theorem chain_250_spec (ha : Loose a) : Ensures NoLoss (chain_250 a) fun r =>
      Power a.val (2 ^ 250 - 1) r.1 ∧ Power a.val 11 r.2 := by
  unfold chain_250
  apply Ensures.bind (square_loose ha)
  intro z2 h2
  apply Ensures.bind (square_power h2)
  intro z4 h4
  apply Ensures.bind (square_power h4)
  intro z8 h8
  apply Ensures.bind (mul_loose ha h8)
  intro z9 h9
  apply Ensures.bind (mul_power h9 h2)
  intro z11 h11
  apply Ensures.bind (square_power h11)
  intro z22 h22
  apply Ensures.bind (mul_power h22 h9)
  intro z5 h5
  apply Ensures.bind (squarings_power 5 h5)
  intro t5 ht5
  apply Ensures.bind (mul_power ht5 h5)
  intro z10 h10
  apply Ensures.bind (squarings_power 10 h10)
  intro t10 ht10
  apply Ensures.bind (mul_power ht10 h10)
  intro z20 h20
  apply Ensures.bind (squarings_power 20 h20)
  intro t20 ht20
  apply Ensures.bind (mul_power ht20 h20)
  intro z40 h40
  apply Ensures.bind (squarings_power 10 h40)
  intro t40 ht40
  apply Ensures.bind (mul_power ht40 h10)
  intro z50 h50
  apply Ensures.bind (squarings_power 50 h50)
  intro t50 ht50
  apply Ensures.bind (mul_power ht50 h50)
  intro z100 h100
  apply Ensures.bind (squarings_power 100 h100)
  intro t100 ht100
  apply Ensures.bind (mul_power ht100 h100)
  intro z200 h200
  apply Ensures.bind (squarings_power 50 h200)
  intro t200 ht200
  apply Ensures.bind (mul_power ht200 h50)
  intro z250 h250
  apply Ensures.pure
  norm_num at h250 h11
  exact ⟨by norm_num; exact h250, h11⟩

theorem invert_spec (ha : Loose a) : Ensures NoLoss (invert a) (Power a.val (P - 2)) := by
  unfold invert
  apply Ensures.bind (chain_250_spec ha)
  rintro ⟨z250, z11⟩ ⟨h250, h11⟩
  apply Ensures.bind (squarings_power 5 h250)
  intro t ht
  apply (mul_power ht h11).mono
  intro r hr
  unfold P
  norm_num at hr ⊢
  exact hr

theorem fe_pow_p_minus_5_over_8_spec (ha : Loose a) :
    Ensures NoLoss (fe_pow_p_minus_5_over_8 a) (Power a.val ((P - 5) / 8)) := by
  unfold fe_pow_p_minus_5_over_8
  apply Ensures.bind (chain_250_spec ha)
  rintro ⟨z250, z11⟩ ⟨h250, h11⟩
  apply Ensures.bind (squarings_power 2 h250)
  intro t ht
  apply (mul_loose ha ht).mono
  intro r hr
  unfold P
  norm_num at hr ⊢
  exact hr

end FieldElement

end paideia_as_crypto.curve
