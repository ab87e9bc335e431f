-- The field of 2^255 - 19 in five limbs of 51 bits, which may grow between two
-- operations. Every operation is recorded with its operands, so that what they must
-- satisfy can be stated of a whole computation.
import PaideiaAs.Lib.Traced
import Mathlib.Data.ZMod.Basic
import Mathlib.Tactic.LinearCombination
import Mathlib.Tactic.NormNum
import Mathlib.Tactic.Ring

namespace paideia_as_crypto.curve

open Trace
open BitVec (ofNat ofNat_add ofNat_mul)
open Nat (cast_add mod_eq_of_lt)

/-! ## The limbs -/

structure FieldElement where
  l0 : UInt64
  l1 : UInt64
  l2 : UInt64
  l3 : UInt64
  l4 : UInt64
deriving DecidableEq

abbrev U128 : Type := BitVec 128

def P_TIMES_2_LOW : UInt64 := 0xfffffffffffda

def P_TIMES_2_HIGH : UInt64 := 0xffffffffffffe

def LOW_51 : UInt64 := 0x7ffffffffffff

/-- The calls that a bound is stated of. -/
inductive Call where
  | add (a b : FieldElement)
  | sub (a b : FieldElement)
  | mul (a b : FieldElement)
  | square (a : FieldElement)
  | mul_a24 (a : FieldElement)
  | propagate_carries (c0 c1 c2 c3 c4 : U128)

abbrev Field (α : Type) : Type := Traced Call α

/-- `x as u128`. -/
def wide (x : UInt64) : U128 := x.toBitVec.setWidth 128

/-- `c as u64`. -/
def narrow (c : U128) : UInt64 := ⟨c.setWidth 64⟩

namespace FieldElement

def ZERO : FieldElement := ⟨0, 0, 0, 0, 0⟩

def ONE : FieldElement := ⟨1, 0, 0, 0, 0⟩

def add (a b : FieldElement) : Field FieldElement :=
  call (.add a b) ⟨a.l0 + b.l0, a.l1 + b.l1, a.l2 + b.l2, a.l3 + b.l3, a.l4 + b.l4⟩

def sub (a b : FieldElement) : Field FieldElement :=
  call (.sub a b)
    ⟨a.l0 + P_TIMES_2_LOW - b.l0, a.l1 + P_TIMES_2_HIGH - b.l1, a.l2 + P_TIMES_2_HIGH - b.l2,
      a.l3 + P_TIMES_2_HIGH - b.l3, a.l4 + P_TIMES_2_HIGH - b.l4⟩

end FieldElement

/-- The accumulators brought back to five limbs. -/
def propagate_carries (c0 c1 c2 c3 c4 : U128) : Field FieldElement :=
  let r0 := narrow c0 &&& LOW_51
  let carry := narrow (c0 >>> 51)
  let t1 := c1 + wide carry
  let r1 := narrow t1 &&& LOW_51
  let carry := narrow (t1 >>> 51)
  let t2 := c2 + wide carry
  let r2 := narrow t2 &&& LOW_51
  let carry := narrow (t2 >>> 51)
  let t3 := c3 + wide carry
  let r3 := narrow t3 &&& LOW_51
  let carry := narrow (t3 >>> 51)
  let t4 := c4 + wide carry
  let r4 := narrow t4 &&& LOW_51
  let carry := narrow (t4 >>> 51)
  let r0 := r0 + carry * 19
  let carry := r0 >>> 51
  let r0 := r0 &&& LOW_51
  let r1 := r1 + carry
  call (.propagate_carries c0 c1 c2 c3 c4) ⟨r0, r1, r2, r3, r4⟩

namespace FieldElement

def mul (a b : FieldElement) : Field FieldElement := do
  let b1_19 := wide b.l1 * 19
  let b2_19 := wide b.l2 * 19
  let b3_19 := wide b.l3 * 19
  let b4_19 := wide b.l4 * 19
  let c0 := wide a.l0 * wide b.l0 + wide a.l1 * b4_19 + wide a.l2 * b3_19 + wide a.l3 * b2_19 +
    wide a.l4 * b1_19
  let c1 := wide a.l0 * wide b.l1 + wide a.l1 * wide b.l0 + wide a.l2 * b4_19 +
    wide a.l3 * b3_19 + wide a.l4 * b2_19
  let c2 := wide a.l0 * wide b.l2 + wide a.l1 * wide b.l1 + wide a.l2 * wide b.l0 +
    wide a.l3 * b4_19 + wide a.l4 * b3_19
  let c3 := wide a.l0 * wide b.l3 + wide a.l1 * wide b.l2 + wide a.l2 * wide b.l1 +
    wide a.l3 * wide b.l0 + wide a.l4 * b4_19
  let c4 := wide a.l0 * wide b.l4 + wide a.l1 * wide b.l3 + wide a.l2 * wide b.l2 +
    wide a.l3 * wide b.l1 + wide a.l4 * wide b.l0
  call (.mul a b) ()
  propagate_carries c0 c1 c2 c3 c4

def square (a : FieldElement) : Field FieldElement := do
  let a0_2 := a.l0 * 2
  let a1_2 := a.l1 * 2
  let a3_19 := a.l3 * 19
  let a4_19 := a.l4 * 19
  let a4_19_2 := a4_19 * 2
  let a3_2 := a.l3 * 2
  let c0 := wide a.l0 * wide a.l0 + wide a1_2 * wide a4_19 + wide a3_2 * (wide a.l2 * 19)
  let c1 := wide a0_2 * wide a.l1 + wide a.l2 * wide a4_19 * 2 + wide a.l3 * wide a3_19
  let c2 := wide a0_2 * wide a.l2 + wide a.l1 * wide a.l1 + wide a.l3 * wide a4_19_2
  let c3 := wide a0_2 * wide a.l3 + wide a1_2 * wide a.l2 + wide a.l4 * wide a4_19
  let c4 := wide a0_2 * wide a.l4 + wide a1_2 * wide a.l3 + wide a.l2 * wide a.l2
  call (.square a) ()
  propagate_carries c0 c1 c2 c3 c4

def mul_a24 (a : FieldElement) : Field FieldElement := do
  let c0 := wide a.l0 * 121665
  let c1 := wide a.l1 * 121665
  let c2 := wide a.l2 * 121665
  let c3 := wide a.l3 * 121665
  let c4 := wide a.l4 * 121665
  call (.mul_a24 a) ()
  propagate_carries c0 c1 c2 c3 c4

end FieldElement

/-- Nothing is lost in the call: no limb goes below zero, and no sum, product or carry
over the width it is kept in. -/
def Call.NoLoss : Call → Prop
  | .add a b =>
    a.l0.toNat + b.l0.toNat < 2 ^ 64 ∧ a.l1.toNat + b.l1.toNat < 2 ^ 64 ∧
      a.l2.toNat + b.l2.toNat < 2 ^ 64 ∧ a.l3.toNat + b.l3.toNat < 2 ^ 64 ∧
      a.l4.toNat + b.l4.toNat < 2 ^ 64
  | .sub a b =>
    (b.l0.toNat ≤ a.l0.toNat + (2 ^ 52 - 38) ∧ b.l1.toNat ≤ a.l1.toNat + (2 ^ 52 - 2) ∧
      b.l2.toNat ≤ a.l2.toNat + (2 ^ 52 - 2) ∧ b.l3.toNat ≤ a.l3.toNat + (2 ^ 52 - 2) ∧
      b.l4.toNat ≤ a.l4.toNat + (2 ^ 52 - 2)) ∧
    a.l0.toNat + (2 ^ 52 - 38) < 2 ^ 64 ∧ a.l1.toNat + (2 ^ 52 - 2) < 2 ^ 64 ∧
      a.l2.toNat + (2 ^ 52 - 2) < 2 ^ 64 ∧ a.l3.toNat + (2 ^ 52 - 2) < 2 ^ 64 ∧
      a.l4.toNat + (2 ^ 52 - 2) < 2 ^ 64
  | .mul a b =>
    let (a0, a1, a2, a3, a4) := (a.l0.toNat, a.l1.toNat, a.l2.toNat, a.l3.toNat, a.l4.toNat)
    let (b0, b1, b2, b3, b4) := (b.l0.toNat, b.l1.toNat, b.l2.toNat, b.l3.toNat, b.l4.toNat)
    a0 * b0 + a1 * (b4 * 19) + a2 * (b3 * 19) + a3 * (b2 * 19) + a4 * (b1 * 19) < 2 ^ 128 ∧
      a0 * b1 + a1 * b0 + a2 * (b4 * 19) + a3 * (b3 * 19) + a4 * (b2 * 19) < 2 ^ 128 ∧
      a0 * b2 + a1 * b1 + a2 * b0 + a3 * (b4 * 19) + a4 * (b3 * 19) < 2 ^ 128 ∧
      a0 * b3 + a1 * b2 + a2 * b1 + a3 * b0 + a4 * (b4 * 19) < 2 ^ 128 ∧
      a0 * b4 + a1 * b3 + a2 * b2 + a3 * b1 + a4 * b0 < 2 ^ 128
  | .square a =>
    let (a0, a1, a2, a3, a4) := (a.l0.toNat, a.l1.toNat, a.l2.toNat, a.l3.toNat, a.l4.toNat)
    (a0 * 2 < 2 ^ 64 ∧ a1 * 2 < 2 ^ 64 ∧ a3 * 19 < 2 ^ 64 ∧ a4 * 19 * 2 < 2 ^ 64 ∧
      a3 * 2 < 2 ^ 64) ∧
    a0 * a0 + a1 * 2 * (a4 * 19) + a3 * 2 * (a2 * 19) < 2 ^ 128 ∧
      a0 * 2 * a1 + a2 * (a4 * 19) * 2 + a3 * (a3 * 19) < 2 ^ 128 ∧
      a0 * 2 * a2 + a1 * a1 + a3 * (a4 * 19 * 2) < 2 ^ 128 ∧
      a0 * 2 * a3 + a1 * 2 * a2 + a4 * (a4 * 19) < 2 ^ 128 ∧
      a0 * 2 * a4 + a1 * 2 * a3 + a2 * a2 < 2 ^ 128
  | .mul_a24 a =>
    a.l0.toNat * 121665 < 2 ^ 128 ∧ a.l1.toNat * 121665 < 2 ^ 128 ∧
      a.l2.toNat * 121665 < 2 ^ 128 ∧ a.l3.toNat * 121665 < 2 ^ 128 ∧
      a.l4.toNat * 121665 < 2 ^ 128
  | .propagate_carries c0 c1 c2 c3 c4 =>
    let k0 := c0.toNat / 2 ^ 51
    let t1 := c1.toNat + k0
    let k1 := t1 / 2 ^ 51
    let t2 := c2.toNat + k1
    let k2 := t2 / 2 ^ 51
    let t3 := c3.toNat + k2
    let k3 := t3 / 2 ^ 51
    let t4 := c4.toNat + k3
    let k4 := t4 / 2 ^ 51
    let r0 := c0.toNat % 2 ^ 51 + k4 * 19
    (k0 < 2 ^ 64 ∧ k1 < 2 ^ 64 ∧ k2 < 2 ^ 64 ∧ k3 < 2 ^ 64 ∧ k4 * 19 < 2 ^ 64) ∧
      (t1 < 2 ^ 128 ∧ t2 < 2 ^ 128 ∧ t3 < 2 ^ 128 ∧ t4 < 2 ^ 128) ∧
      r0 < 2 ^ 64 ∧ t1 % 2 ^ 51 + r0 / 2 ^ 51 < 2 ^ 64

/-! ## Bounds and values -/

/-- What every product comes back as. -/
structure Tight (a : FieldElement) : Prop where
  b0 : a.l0.toNat < 2 ^ 51
  b1 : a.l1.toNat < 2 ^ 51 + 2 ^ 13
  b2 : a.l2.toNat < 2 ^ 51
  b3 : a.l3.toNat < 2 ^ 51
  b4 : a.l4.toNat < 2 ^ 51

/-- No limb is above that of `2 * p`, so that the element can be subtracted. -/
structure Below2p (a : FieldElement) : Prop where
  b0 : a.l0.toNat ≤ 2 ^ 52 - 38
  b1 : a.l1.toNat ≤ 2 ^ 52 - 2
  b2 : a.l2.toNat ≤ 2 ^ 52 - 2
  b3 : a.l3.toNat ≤ 2 ^ 52 - 2
  b4 : a.l4.toNat ≤ 2 ^ 52 - 2

/-- No limb is above `n`. -/
structure Bounded (n : Nat) (a : FieldElement) : Prop where
  b0 : a.l0.toNat ≤ n
  b1 : a.l1.toNat ≤ n
  b2 : a.l2.toNat ≤ n
  b3 : a.l3.toNat ≤ n
  b4 : a.l4.toNat ≤ n

/-- What may be multiplied. -/
abbrev Loose (a : FieldElement) : Prop := Bounded (2 ^ 54) a

variable {m n k : Nat} {a b r : FieldElement} {c : U128}

theorem Bounded.mono (h : Bounded m a) (hmn : m ≤ n) : Bounded n a := by
  obtain ⟨h0, h1, h2, h3, h4⟩ := h
  constructor <;> omega

theorem Tight.below2p (h : Tight a) : Below2p a := by
  obtain ⟨h0, h1, h2, h3, h4⟩ := h
  constructor <;> omega

theorem Below2p.bounded (h : Below2p a) : Bounded (2 ^ 52) a := by
  obtain ⟨h0, h1, h2, h3, h4⟩ := h
  constructor <;> omega

theorem Tight.bounded (h : Tight a) : Bounded (2 ^ 51 + 2 ^ 13) a := by
  obtain ⟨h0, h1, h2, h3, h4⟩ := h
  constructor <;> omega

theorem Tight.loose (h : Tight a) : Loose a := h.bounded.mono (by norm_num)

/-- `p`. -/
def P : Nat := 2 ^ 255 - 19

def FieldElement.value (a : FieldElement) : Nat :=
  a.l0.toNat + 2 ^ 51 * a.l1.toNat + 2 ^ 102 * a.l2.toNat + 2 ^ 153 * a.l3.toNat +
    2 ^ 204 * a.l4.toNat

def FieldElement.val (a : FieldElement) : ZMod P := (a.value : ZMod P)

/-! ## Words -/

variable (x : UInt64)

theorem and_low : (x &&& LOW_51).toNat = x.toNat % 2 ^ 51 := by
  rw [UInt64.toNat_and]
  exact Nat.and_two_pow_sub_one_eq_mod _ 51

theorem shift_51 : (x >>> 51).toNat = x.toNat / 2 ^ 51 := by
  rw [UInt64.toNat_shiftRight]
  exact Nat.shiftRight_eq_div_pow _ _

theorem wide_toNat : (wide x).toNat = x.toNat := by
  unfold wide
  rw [BitVec.toNat_setWidth, mod_eq_of_lt]
  · rfl
  · exact Nat.lt_trans x.toNat_lt (by decide)

theorem narrow_toNat (c : U128) : (narrow c).toNat = c.toNat % 2 ^ 64 := by
  unfold narrow
  exact BitVec.toNat_setWidth 64 c

theorem narrow_low (c : U128) : (narrow c &&& LOW_51).toNat = c.toNat % 2 ^ 51 := by
  rw [and_low, narrow_toNat, Nat.mod_mod_of_dvd _ (by decide)]

theorem narrow_carry (h : c.toNat < 2 ^ 115) : (narrow (c >>> 51)).toNat = c.toNat / 2 ^ 51 := by
  rw [narrow_toNat, BitVec.toNat_ushiftRight, Nat.shiftRight_eq_div_pow]
  apply mod_eq_of_lt
  omega

theorem add_carry {k : UInt64} (h : c.toNat < 2 ^ 127) :
    (c + wide k).toNat = c.toNat + k.toNat := by
  rw [BitVec.toNat_add, wide_toNat]
  apply mod_eq_of_lt
  have := k.toNat_lt
  omega

theorem wide_eq : wide x = ofNat 128 x.toNat := by
  rw [← wide_toNat, BitVec.ofNat_toNat, BitVec.setWidth_eq]

theorem times_19 : (19 : U128) = ofNat 128 19 := rfl

theorem times_2 : (2 : U128) = ofNat 128 2 := rfl

/-- An accumulator that stays below 2^128 is its sum. -/
theorem acc_toNat (hc : c = ofNat 128 n) (h : n < 2 ^ 128) : c.toNat = n := by
  rw [hc, BitVec.toNat_ofNat, mod_eq_of_lt h]

theorem mul_le_of_limbs {x y i j : Nat} (hx : x ≤ i * 2 ^ 54) (hy : y ≤ j * 2 ^ 54) :
    x * y ≤ i * j * 2 ^ 108 :=
  calc x * y ≤ i * 2 ^ 54 * (j * 2 ^ 54) := Nat.mul_le_mul hx hy
    _ = i * j * 2 ^ 108 := by ring

theorem val_of_value (h : a.value + k * P = n) : a.val = (n : ZMod P) := by
  unfold FieldElement.val
  rw [← h, cast_add, Nat.cast_mul, ZMod.natCast_self, mul_zero, add_zero]

/-! ## The operations -/

theorem propagate_carries_spec {c0 c1 c2 c3 c4 : U128} (h0 : c0.toNat ≤ 100 * 2 ^ 108)
    (h1 : c1.toNat ≤ 100 * 2 ^ 108) (h2 : c2.toNat ≤ 100 * 2 ^ 108)
    (h3 : c3.toNat ≤ 100 * 2 ^ 108) (h4 : c4.toNat ≤ 5 * 2 ^ 108) :
    Ensures Call.NoLoss (propagate_carries c0 c1 c2 c3 c4) fun r =>
      Tight r ∧ r.val = ((c0.toNat + 2 ^ 51 * c1.toNat + 2 ^ 102 * c2.toNat +
        2 ^ 153 * c3.toNat + 2 ^ 204 * c4.toNat : Nat) : ZMod P) := by
  unfold propagate_carries
  extract_lets r0 k0 t1 r1 k1 t2 r2 k2 t3 r3 k3 t4 r4 k4 w0 k5 w1 w2
  -- the carries, each far below the width of a word
  have e0 : k0.toNat = c0.toNat / 2 ^ 51 := narrow_carry (by omega)
  have s1 : t1.toNat = c1.toNat + k0.toNat := add_carry (by omega)
  have e1 : k1.toNat = t1.toNat / 2 ^ 51 := narrow_carry (by omega)
  have s2 : t2.toNat = c2.toNat + k1.toNat := add_carry (by omega)
  have e2 : k2.toNat = t2.toNat / 2 ^ 51 := narrow_carry (by omega)
  have s3 : t3.toNat = c3.toNat + k2.toNat := add_carry (by omega)
  have e3 : k3.toNat = t3.toNat / 2 ^ 51 := narrow_carry (by omega)
  have s4 : t4.toNat = c4.toNat + k3.toNat := add_carry (by omega)
  have e4 : k4.toNat = t4.toNat / 2 ^ 51 := narrow_carry (by omega)
  -- the limbs
  have m0 : r0.toNat = c0.toNat % 2 ^ 51 := narrow_low c0
  have m1 : r1.toNat = t1.toNat % 2 ^ 51 := narrow_low t1
  have m2 : r2.toNat = t2.toNat % 2 ^ 51 := narrow_low t2
  have m3 : r3.toNat = t3.toNat % 2 ^ 51 := narrow_low t3
  have m4 : r4.toNat = t4.toNat % 2 ^ 51 := narrow_low t4
  have hk4 : k4.toNat * 19 < 2 ^ 63 + 2 ^ 62 := by omega
  have n0 : w0.toNat = r0.toNat + k4.toNat * 19 := by
    have h19 : (k4 * 19).toNat = k4.toNat * 19 := by
      rw [UInt64.toNat_mul]
      change k4.toNat * 19 % 2 ^ 64 = _
      omega
    rw [UInt64.toNat_add, h19]
    exact mod_eq_of_lt (by omega)
  have n1 : w1.toNat = w0.toNat % 2 ^ 51 := and_low w0
  have e5 : k5.toNat = w0.toNat / 2 ^ 51 := shift_51 w0
  have n2 : w2.toNat = r1.toNat + k5.toNat := by
    rw [UInt64.toNat_add]
    exact mod_eq_of_lt (by omega)
  apply Ensures.call
  · unfold Call.NoLoss
    simp only [← e0, ← s1, ← e1, ← s2, ← e2, ← s3, ← e3, ← s4, ← e4, ← m0, ← m1, ← n0, ← e5]
    omega
  · refine ⟨?_, val_of_value (k := k4.toNat) ?_⟩
    · constructor <;> simp only <;> omega
    · unfold FieldElement.value P
      simp only
      omega

/-- `2^255` is `19` in the field. -/
theorem two_pow_255 : (2 : ZMod P) ^ 255 = 19 := by
  have h : ((2 ^ 255 : Nat) : ZMod P) = ((P + 19 : Nat) : ZMod P) := rfl
  rw [Nat.cast_pow, cast_add, ZMod.natCast_self, zero_add] at h
  simpa only [Nat.cast_ofNat] using h

theorem mul_spec (ha : Loose a) (hb : Loose b) :
    Ensures Call.NoLoss (a.mul b) fun r => Tight r ∧ r.val = a.val * b.val := by
  obtain ⟨a0, a1, a2, a3, a4⟩ := a
  obtain ⟨b0, b1, b2, b3, b4⟩ := b
  obtain ⟨ha0, ha1, ha2, ha3, ha4⟩ := ha
  obtain ⟨hb0, hb1, hb2, hb3, hb4⟩ := hb
  simp only at *
  rw [← Nat.one_mul (2 ^ 54)] at ha0 ha1 ha2 ha3 ha4 hb0 hb1 hb2 hb3 hb4
  have x19 : ∀ {x : Nat}, x ≤ 1 * 2 ^ 54 → x * 19 ≤ 19 * 2 ^ 54 := by
    intro x hx
    omega
  have t00 := mul_le_of_limbs (i := 1) (j := 1) ha0 hb0
  have t01 := mul_le_of_limbs (i := 1) (j := 19) ha1 (x19 hb4)
  have t02 := mul_le_of_limbs (i := 1) (j := 19) ha2 (x19 hb3)
  have t03 := mul_le_of_limbs (i := 1) (j := 19) ha3 (x19 hb2)
  have t04 := mul_le_of_limbs (i := 1) (j := 19) ha4 (x19 hb1)
  have t10 := mul_le_of_limbs (i := 1) (j := 1) ha0 hb1
  have t11 := mul_le_of_limbs (i := 1) (j := 1) ha1 hb0
  have t12 := mul_le_of_limbs (i := 1) (j := 19) ha2 (x19 hb4)
  have t13 := mul_le_of_limbs (i := 1) (j := 19) ha3 (x19 hb3)
  have t14 := mul_le_of_limbs (i := 1) (j := 19) ha4 (x19 hb2)
  have t20 := mul_le_of_limbs (i := 1) (j := 1) ha0 hb2
  have t21 := mul_le_of_limbs (i := 1) (j := 1) ha1 hb1
  have t22 := mul_le_of_limbs (i := 1) (j := 1) ha2 hb0
  have t23 := mul_le_of_limbs (i := 1) (j := 19) ha3 (x19 hb4)
  have t24 := mul_le_of_limbs (i := 1) (j := 19) ha4 (x19 hb3)
  have t30 := mul_le_of_limbs (i := 1) (j := 1) ha0 hb3
  have t31 := mul_le_of_limbs (i := 1) (j := 1) ha1 hb2
  have t32 := mul_le_of_limbs (i := 1) (j := 1) ha2 hb1
  have t33 := mul_le_of_limbs (i := 1) (j := 1) ha3 hb0
  have t34 := mul_le_of_limbs (i := 1) (j := 19) ha4 (x19 hb4)
  have t40 := mul_le_of_limbs (i := 1) (j := 1) ha0 hb4
  have t41 := mul_le_of_limbs (i := 1) (j := 1) ha1 hb3
  have t42 := mul_le_of_limbs (i := 1) (j := 1) ha2 hb2
  have t43 := mul_le_of_limbs (i := 1) (j := 1) ha3 hb1
  have t44 := mul_le_of_limbs (i := 1) (j := 1) ha4 hb0
  unfold FieldElement.mul
  extract_lets b1_19 b2_19 b3_19 b4_19 c0 c1 c2 c3 c4
  have e0 : c0.toNat = a0.toNat * b0.toNat + a1.toNat * (b4.toNat * 19) +
      a2.toNat * (b3.toNat * 19) + a3.toNat * (b2.toNat * 19) + a4.toNat * (b1.toNat * 19) := by
    apply acc_toNat
    · simp only [c0, b1_19, b2_19, b3_19, b4_19, wide_eq, times_19, ← ofNat_mul,
        ← ofNat_add]
    · omega
  have e1 : c1.toNat = a0.toNat * b1.toNat + a1.toNat * b0.toNat + a2.toNat * (b4.toNat * 19) +
      a3.toNat * (b3.toNat * 19) + a4.toNat * (b2.toNat * 19) := by
    apply acc_toNat
    · simp only [c1, b2_19, b3_19, b4_19, wide_eq, times_19, ← ofNat_mul, ← ofNat_add]
    · omega
  have e2 : c2.toNat = a0.toNat * b2.toNat + a1.toNat * b1.toNat + a2.toNat * b0.toNat +
      a3.toNat * (b4.toNat * 19) + a4.toNat * (b3.toNat * 19) := by
    apply acc_toNat
    · simp only [c2, b3_19, b4_19, wide_eq, times_19, ← ofNat_mul, ← ofNat_add]
    · omega
  have e3 : c3.toNat = a0.toNat * b3.toNat + a1.toNat * b2.toNat + a2.toNat * b1.toNat +
      a3.toNat * b0.toNat + a4.toNat * (b4.toNat * 19) := by
    apply acc_toNat
    · simp only [c3, b4_19, wide_eq, times_19, ← ofNat_mul, ← ofNat_add]
    · omega
  have e4 : c4.toNat = a0.toNat * b4.toNat + a1.toNat * b3.toNat + a2.toNat * b2.toNat +
      a3.toNat * b1.toNat + a4.toNat * b0.toNat := by
    apply acc_toNat
    · simp only [c4, wide_eq, ← ofNat_mul, ← ofNat_add]
    · omega
  apply Ensures.bind (p := fun _ => True) (Ensures.call ?_ trivial)
  · intro _ _
    apply (propagate_carries_spec (by omega) (by omega) (by omega) (by omega) (by omega)).mono
    rintro r ⟨hr, hv⟩
    refine ⟨hr, ?_⟩
    rw [hv, e0, e1, e2, e3, e4]
    unfold FieldElement.val FieldElement.value
    push_cast
    linear_combination (-(a1.toNat * b4.toNat + a2.toNat * b3.toNat + 2 ^ 51 * a2.toNat * b4.toNat + a3.toNat * b2.toNat + 2 ^ 51 * a3.toNat * b3.toNat + 2 ^ 102 * a3.toNat * b4.toNat + a4.toNat * b1.toNat + 2 ^ 51 * a4.toNat * b2.toNat + 2 ^ 102 * a4.toNat * b3.toNat + 2 ^ 153 * a4.toNat * b4.toNat)) * two_pow_255
  · unfold Call.NoLoss
    simp only
    omega

/-- A limb times a small constant, in one word. -/
theorem limb_mul {x k : UInt64} (hx : x.toNat ≤ 2 ^ 54) (hk : k.toNat ≤ 38) :
    (x * k).toNat = x.toNat * k.toNat := by
  rw [UInt64.toNat_mul]
  apply mod_eq_of_lt
  calc x.toNat * k.toNat ≤ 2 ^ 54 * 38 := Nat.mul_le_mul hx hk
    _ < 2 ^ 64 := by norm_num

theorem square_spec (ha : Loose a) :
    Ensures Call.NoLoss a.square fun r => Tight r ∧ r.val = a.val * a.val := by
  obtain ⟨a0, a1, a2, a3, a4⟩ := a
  obtain ⟨ha0, ha1, ha2, ha3, ha4⟩ := ha
  simp only at *
  unfold FieldElement.square
  extract_lets a0_2 a1_2 a3_19 a4_19 a4_19_2 a3_2 c0 c1 c2 c3 c4
  have d0 : a0_2.toNat = a0.toNat * 2 := limb_mul ha0 (by decide)
  have d1 : a1_2.toNat = a1.toNat * 2 := limb_mul ha1 (by decide)
  have d3 : a3_19.toNat = a3.toNat * 19 := limb_mul ha3 (by decide)
  have d4 : a4_19.toNat = a4.toNat * 19 := limb_mul ha4 (by decide)
  have d5 : a4_19_2.toNat = a4.toNat * 19 * 2 := by
    rw [UInt64.toNat_mul, d4]
    change a4.toNat * 19 * 2 % 2 ^ 64 = _
    omega
  have d6 : a3_2.toNat = a3.toNat * 2 := limb_mul ha3 (by decide)
  rw [← Nat.one_mul (2 ^ 54)] at ha0 ha1 ha2 ha3 ha4
  have x2 : ∀ {x : Nat}, x ≤ 1 * 2 ^ 54 → x * 2 ≤ 2 * 2 ^ 54 := by
    intro x hx
    omega
  have x19 : ∀ {x : Nat}, x ≤ 1 * 2 ^ 54 → x * 19 ≤ 19 * 2 ^ 54 := by
    intro x hx
    omega
  have x38 : ∀ {x : Nat}, x ≤ 1 * 2 ^ 54 → x * 19 * 2 ≤ 38 * 2 ^ 54 := by
    intro x hx
    omega
  have t00 := mul_le_of_limbs (i := 1) (j := 1) ha0 ha0
  have t01 := mul_le_of_limbs (i := 2) (j := 19) (x2 ha1) (x19 ha4)
  have t02 := mul_le_of_limbs (i := 2) (j := 19) (x2 ha3) (x19 ha2)
  have t10 := mul_le_of_limbs (i := 2) (j := 1) (x2 ha0) ha1
  have t11 := mul_le_of_limbs (i := 1) (j := 19) ha2 (x19 ha4)
  have t12 := mul_le_of_limbs (i := 1) (j := 19) ha3 (x19 ha3)
  have t20 := mul_le_of_limbs (i := 2) (j := 1) (x2 ha0) ha2
  have t21 := mul_le_of_limbs (i := 1) (j := 1) ha1 ha1
  have t22 := mul_le_of_limbs (i := 1) (j := 38) ha3 (x38 ha4)
  have t30 := mul_le_of_limbs (i := 2) (j := 1) (x2 ha0) ha3
  have t31 := mul_le_of_limbs (i := 2) (j := 1) (x2 ha1) ha2
  have t32 := mul_le_of_limbs (i := 1) (j := 19) ha4 (x19 ha4)
  have t40 := mul_le_of_limbs (i := 2) (j := 1) (x2 ha0) ha4
  have t41 := mul_le_of_limbs (i := 2) (j := 1) (x2 ha1) ha3
  have t42 := mul_le_of_limbs (i := 1) (j := 1) ha2 ha2
  have e0 : c0.toNat = a0.toNat * a0.toNat + a1.toNat * 2 * (a4.toNat * 19) +
      a3.toNat * 2 * (a2.toNat * 19) := by
    apply acc_toNat
    · simp only [c0, wide_eq, d1, d4, d6, times_19, ← ofNat_mul, ← ofNat_add]
    · omega
  have e1 : c1.toNat = a0.toNat * 2 * a1.toNat + a2.toNat * (a4.toNat * 19) * 2 +
      a3.toNat * (a3.toNat * 19) := by
    apply acc_toNat
    · simp only [c1, wide_eq, d0, d3, d4, times_2, ← ofNat_mul, ← ofNat_add]
    · omega
  have e2 : c2.toNat = a0.toNat * 2 * a2.toNat + a1.toNat * a1.toNat +
      a3.toNat * (a4.toNat * 19 * 2) := by
    apply acc_toNat
    · simp only [c2, wide_eq, d0, d5, ← ofNat_mul, ← ofNat_add]
    · omega
  have e3 : c3.toNat = a0.toNat * 2 * a3.toNat + a1.toNat * 2 * a2.toNat +
      a4.toNat * (a4.toNat * 19) := by
    apply acc_toNat
    · simp only [c3, wide_eq, d0, d1, d4, ← ofNat_mul, ← ofNat_add]
    · omega
  have e4 : c4.toNat = a0.toNat * 2 * a4.toNat + a1.toNat * 2 * a3.toNat + a2.toNat * a2.toNat := by
    apply acc_toNat
    · simp only [c4, wide_eq, d0, d1, ← ofNat_mul, ← ofNat_add]
    · omega
  apply Ensures.bind (p := fun _ => True) (Ensures.call ?_ trivial)
  · intro _ _
    apply (propagate_carries_spec (by omega) (by omega) (by omega) (by omega) (by omega)).mono
    rintro r ⟨hr, hv⟩
    refine ⟨hr, ?_⟩
    rw [hv, e0, e1, e2, e3, e4]
    unfold FieldElement.val FieldElement.value
    push_cast
    linear_combination (-(2 * a1.toNat * a4.toNat + 2 * a2.toNat * a3.toNat + 2 ^ 51 * (2 * a2.toNat * a4.toNat) + 2 ^ 51 * a3.toNat * a3.toNat + 2 ^ 102 * (2 * a3.toNat * a4.toNat) + 2 ^ 153 * a4.toNat * a4.toNat)) * two_pow_255
  · unfold Call.NoLoss
    simp only
    omega

theorem mul_a24_spec (ha : Loose a) :
    Ensures Call.NoLoss a.mul_a24 fun r => Tight r ∧ r.val = 121665 * a.val := by
  obtain ⟨a0, a1, a2, a3, a4⟩ := a
  obtain ⟨ha0, ha1, ha2, ha3, ha4⟩ := ha
  simp only at *
  have acc : ∀ x : UInt64, x.toNat ≤ 2 ^ 54 → (wide x * 121665).toNat = x.toNat * 121665 := by
    intro x hx
    rw [BitVec.toNat_mul, wide_toNat]
    change x.toNat * 121665 % 2 ^ 128 = _
    omega
  unfold FieldElement.mul_a24
  extract_lets c0 c1 c2 c3 c4
  have e0 : c0.toNat = a0.toNat * 121665 := acc a0 ha0
  have e1 : c1.toNat = a1.toNat * 121665 := acc a1 ha1
  have e2 : c2.toNat = a2.toNat * 121665 := acc a2 ha2
  have e3 : c3.toNat = a3.toNat * 121665 := acc a3 ha3
  have e4 : c4.toNat = a4.toNat * 121665 := acc a4 ha4
  apply Ensures.bind (p := fun _ => True) (Ensures.call ?_ trivial)
  · intro _ _
    apply (propagate_carries_spec (by omega) (by omega) (by omega) (by omega) (by omega)).mono
    rintro r ⟨hr, hv⟩
    refine ⟨hr, ?_⟩
    rw [hv, e0, e1, e2, e3, e4]
    unfold FieldElement.val FieldElement.value
    push_cast
    ring
  · unfold Call.NoLoss
    simp only
    omega

/-- `r` is the sum, limb by limb. -/
structure Sum (a b r : FieldElement) : Prop where
  e0 : r.l0.toNat = a.l0.toNat + b.l0.toNat
  e1 : r.l1.toNat = a.l1.toNat + b.l1.toNat
  e2 : r.l2.toNat = a.l2.toNat + b.l2.toNat
  e3 : r.l3.toNat = a.l3.toNat + b.l3.toNat
  e4 : r.l4.toNat = a.l4.toNat + b.l4.toNat

/-- `r` is the difference above `2 * p`, limb by limb. -/
structure Difference (a b r : FieldElement) : Prop where
  e0 : r.l0.toNat + b.l0.toNat = a.l0.toNat + (2 ^ 52 - 38)
  e1 : r.l1.toNat + b.l1.toNat = a.l1.toNat + (2 ^ 52 - 2)
  e2 : r.l2.toNat + b.l2.toNat = a.l2.toNat + (2 ^ 52 - 2)
  e3 : r.l3.toNat + b.l3.toNat = a.l3.toNat + (2 ^ 52 - 2)
  e4 : r.l4.toNat + b.l4.toNat = a.l4.toNat + (2 ^ 52 - 2)

theorem Sum.val (h : Sum a b r) : r.val = a.val + b.val := by
  obtain ⟨e0, e1, e2, e3, e4⟩ := h
  unfold FieldElement.val FieldElement.value
  rw [e0, e1, e2, e3, e4]
  push_cast
  ring

theorem Sum.bounded (h : Sum a b r) (ha : Bounded m a)
    (hb : Bounded n b) (hk : m + n ≤ k) : Bounded k r := by
  obtain ⟨e0, e1, e2, e3, e4⟩ := h
  obtain ⟨ha0, ha1, ha2, ha3, ha4⟩ := ha
  obtain ⟨hb0, hb1, hb2, hb3, hb4⟩ := hb
  constructor <;> omega

theorem Difference.val (h : Difference a b r) : r.val = a.val - b.val := by
  obtain ⟨e0, e1, e2, e3, e4⟩ := h
  have hsum : r.value + b.value = a.value + 2 * P := by
    unfold FieldElement.value P
    omega
  have hz := congrArg (Nat.cast : Nat → ZMod P) hsum
  rw [cast_add, cast_add, Nat.cast_mul, ZMod.natCast_self, mul_zero, add_zero] at hz
  exact eq_sub_of_add_eq hz

theorem Difference.bounded (h : Difference a b r)
    (ha : Bounded m a) (hk : m + 2 ^ 52 ≤ k) : Bounded k r := by
  obtain ⟨e0, e1, e2, e3, e4⟩ := h
  obtain ⟨ha0, ha1, ha2, ha3, ha4⟩ := ha
  constructor <;> omega

theorem add_spec {a b : FieldElement} (ha : Loose a) (hb : Loose b) :
    Ensures Call.NoLoss (a.add b) (Sum a b) := by
  obtain ⟨ha0, ha1, ha2, ha3, ha4⟩ := ha
  obtain ⟨hb0, hb1, hb2, hb3, hb4⟩ := hb
  have exact_add : ∀ x y : UInt64, x.toNat ≤ 2 ^ 54 → y.toNat ≤ 2 ^ 54 →
      (x + y).toNat = x.toNat + y.toNat := by
    intro x y hx hy
    rw [UInt64.toNat_add]
    exact mod_eq_of_lt (by omega)
  apply Ensures.call
  · unfold Call.NoLoss
    simp only
    omega
  · exact ⟨exact_add _ _ ha0 hb0, exact_add _ _ ha1 hb1, exact_add _ _ ha2 hb2,
      exact_add _ _ ha3 hb3, exact_add _ _ ha4 hb4⟩

/-- No limb of `b` is above that of `a + 2 * p`. -/
structure Covers (a b : FieldElement) : Prop where
  c0 : b.l0.toNat ≤ a.l0.toNat + (2 ^ 52 - 38)
  c1 : b.l1.toNat ≤ a.l1.toNat + (2 ^ 52 - 2)
  c2 : b.l2.toNat ≤ a.l2.toNat + (2 ^ 52 - 2)
  c3 : b.l3.toNat ≤ a.l3.toNat + (2 ^ 52 - 2)
  c4 : b.l4.toNat ≤ a.l4.toNat + (2 ^ 52 - 2)

theorem Below2p.covered (h : Below2p b) (a : FieldElement) : Covers a b := by
  obtain ⟨h0, h1, h2, h3, h4⟩ := h
  constructor <;> omega

theorem sub_covered_spec (ha : Loose a) (hb : Covers a b) :
    Ensures Call.NoLoss (a.sub b) (Difference a b) := by
  obtain ⟨ha0, ha1, ha2, ha3, ha4⟩ := ha
  obtain ⟨hb0, hb1, hb2, hb3, hb4⟩ := hb
  have exact_sub : ∀ x y c : UInt64, x.toNat ≤ 2 ^ 54 → c.toNat ≤ 2 ^ 52 →
      y.toNat ≤ x.toNat + c.toNat → (x + c - y).toNat + y.toNat = x.toNat + c.toNat := by
    intro x y c hx hc hy
    have hxc : (x + c).toNat = x.toNat + c.toNat := by
      rw [UInt64.toNat_add]
      exact mod_eq_of_lt (by omega)
    have hle : y ≤ x + c := by
      rw [UInt64.le_iff_toNat_le, hxc]
      exact hy
    rw [UInt64.toNat_sub_of_le _ _ hle, hxc]
    omega
  apply Ensures.call
  · unfold Call.NoLoss
    simp only
    omega
  · exact ⟨exact_sub _ _ _ ha0 (by decide) hb0, exact_sub _ _ _ ha1 (by decide) hb1,
      exact_sub _ _ _ ha2 (by decide) hb2, exact_sub _ _ _ ha3 (by decide) hb3,
      exact_sub _ _ _ ha4 (by decide) hb4⟩

theorem sub_spec (ha : Loose a) (hb : Below2p b) : Ensures Call.NoLoss (a.sub b) (Difference a b) :=
  sub_covered_spec ha (hb.covered a)

end paideia_as_crypto.curve
