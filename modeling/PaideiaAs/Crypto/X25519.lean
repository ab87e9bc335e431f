-- X25519: the ladder with its lazy swaps over the limbs, against the ladder in the
-- field that swaps before and after every step.
import PaideiaAs.Crypto.FieldBytes
import PaideiaAs.Crypto.FieldPowers
import PaideiaAs.Lib.MontgomeryLadder
import Mathlib.Algebra.Field.ZMod

namespace paideia_as_crypto.curve

open Trace Bytes MontgomeryLadder
open Call (NoLoss)

/-! ## The function -/

def clamp (scalar : Bytes32) : Bytes32 :=
  let k := set_byte scalar 0 (byte scalar 0 &&& 248)
  let k := set_byte k 31 (byte k 31 &&& 127)
  set_byte k 31 (byte k 31 ||| 64)

/-- The variables of the ladder. -/
structure Ladder where
  x2 : FieldElement
  z2 : FieldElement
  x3 : FieldElement
  z3 : FieldElement
  swap : UInt64

open FieldElement

def ladder_start (x1 : FieldElement) : Ladder := ⟨ONE, ZERO, x1, ONE, 0⟩

/-- The differential doubling and addition of one turn, after its swap. -/
def differential (x1 x2 z2 x3 z3 : FieldElement) (swap : UInt64) : Field Ladder := do
  let a ← x2.add z2
  let aa ← a.square
  let b ← x2.sub z2
  let bb ← b.square
  let e ← aa.sub bb
  let c ← x3.add z3
  let d ← x3.sub z3
  let da ← d.mul a
  let cb ← c.mul b
  let sum ← da.add cb
  let x3_new ← sum.square
  let diff ← da.sub cb
  let diff2 ← diff.square
  let z3_new ← x1.mul diff2
  let x2_new ← aa.mul bb
  let ea ← e.mul_a24
  let aea ← aa.add ea
  let z2_new ← e.mul aea
  pure ⟨x2_new, z2_new, x3_new, z3_new, swap⟩

/-- The body of the loop, for one bit of the scalar. -/
def ladder_step (x1 : FieldElement) (s : Ladder) (k_t : UInt64) : Field Ladder :=
  let swap := s.swap ^^^ k_t
  let (x2, x3) := cswap s.x2 s.x3 swap
  let (z2, z3) := cswap s.z2 s.z3 swap
  differential x1 x2 z2 x3 z3 k_t

/-- The state after `i` turns of the loop, which begins with bit 254. -/
def ladder (k : Bytes32) (x1 : FieldElement) : Nat → Field Ladder
  | 0 => pure (ladder_start x1)
  | i + 1 => do
    let s ← ladder k x1 i
    ladder_step x1 s (scalar_bit k (254 - i))

def x25519_scalarmult (scalar point : Bytes32) : Field Bytes32 := do
  let k := clamp scalar
  let x1 := from_bytes point
  let s ← ladder k x1 255
  let (x2, _) := cswap s.x2 s.x3 s.swap
  let (z2, _) := cswap s.z2 s.z3 s.swap
  let z_inv ← z2.invert
  let r ← x2.mul z_inv
  pure r.to_bytes

/-! ## The scalar -/

/-- The scalar with its bits 0, 1, 2 and 255 cleared and bit 254 set. -/
def clampNat (n : Nat) : Nat := n % 2 ^ 254 / 8 * 8 + 2 ^ 254

theorem clamp_low (b : UInt8) : (b &&& 248).toNat = b.toNat / 8 * 8 := by
  have h : ∀ n < 256, n &&& 248 = n / 8 * 8 := by decide +kernel
  rw [UInt8.toNat_and]
  exact h _ b.toNat_lt

theorem clamp_high (b : UInt8) : (b &&& 127 ||| 64).toNat = b.toNat % 64 + 64 := by
  have h : ∀ n < 256, n &&& 127 ||| 64 = n % 64 + 64 := by decide +kernel
  rw [UInt8.toNat_or, UInt8.toNat_and]
  exact h _ b.toNat_lt

theorem clamp_eq (scalar : Bytes32) :
    clamp scalar = set_byte (set_byte scalar 0 (byte scalar 0 &&& 248)) 31
      (byte (set_byte scalar 0 (byte scalar 0 &&& 248)) 31 &&& 127 ||| 64) := by
  unfold clamp
  simp only
  rw [byte_set_byte _ (by decide), set_byte_set_byte]

theorem ofLe_clamp (scalar : Bytes32) : ofLe (clamp scalar).1 = clampNat (ofLe scalar.1) := by
  have hlt := ofLe_lt_256 scalar
  have h0 := ofLe_set_byte scalar (i := 0) (by decide) (byte scalar 0 &&& 248)
  have hlow := clamp_low (byte scalar 0)
  have hb0 := byte_toNat scalar 0
  rw [clamp_eq]
  generalize set_byte scalar 0 (byte scalar 0 &&& 248) = k at *
  have h1 := ofLe_set_byte k (i := 31) (by decide) (byte k 31 &&& 127 ||| 64)
  have hhigh := clamp_high (byte k 31)
  have hb1 := byte_toNat k 31
  have hk := ofLe_lt_256 k
  unfold clampNat
  omega

/-! ## The steps -/

/-- The pairs of the ladder in the field, as they stand. -/
def Ladder.raw (s : Ladder) : State (ZMod P) := ⟨⟨s.x2.val, s.z2.val⟩, ⟨s.x3.val, s.z3.val⟩⟩

/-- The pairs with the swap that is still due. -/
def Ladder.settled (s : Ladder) : State (ZMod P) :=
  let (x2, x3) := cswap s.x2 s.x3 s.swap
  let (z2, z3) := cswap s.z2 s.z3 s.swap
  ⟨⟨x2.val, z2.val⟩, ⟨x3.val, z3.val⟩⟩

structure TightLadder (s : Ladder) : Prop where
  x2 : Tight s.x2
  z2 : Tight s.z2
  x3 : Tight s.x3
  z3 : Tight s.z3

theorem settled_eq {s : Ladder} {b : Bool} (hb : s.swap = flag b) : s.settled = s.raw.swapIf b := by
  unfold Ladder.settled
  rw [hb, cswap_flag, cswap_flag]
  cases b <;> rfl

theorem differential_spec {x1 x2 z2 x3 z3 : FieldElement} (h1 : Tight x1) (hx2 : Tight x2)
    (hz2 : Tight z2) (hx3 : Tight x3) (hz3 : Tight z3) (swap : UInt64) :
    Ensures NoLoss (differential x1 x2 z2 x3 z3 swap) fun s =>
      TightLadder s ∧ s.swap = swap ∧
        s.raw = rawStep 121665 x1.val ⟨⟨x2.val, z2.val⟩, ⟨x3.val, z3.val⟩⟩ := by
  unfold differential
  apply Ensures.bind (add_spec hx2.loose hz2.loose)
  intro a ha
  have la : Loose a := ha.bounded hx2.bounded hz2.bounded (by norm_num)
  apply Ensures.bind (square_spec la)
  rintro aa ⟨taa, vaa⟩
  apply Ensures.bind (sub_spec hx2.loose hz2.below2p)
  intro b hb
  have lb : Loose b := hb.bounded hx2.bounded (by norm_num)
  apply Ensures.bind (square_spec lb)
  rintro bb ⟨tbb, vbb⟩
  apply Ensures.bind (sub_spec taa.loose tbb.below2p)
  intro e he
  have le : Loose e := he.bounded taa.bounded (by norm_num)
  apply Ensures.bind (add_spec hx3.loose hz3.loose)
  intro c hc
  have lc : Loose c := hc.bounded hx3.bounded hz3.bounded (by norm_num)
  apply Ensures.bind (sub_spec hx3.loose hz3.below2p)
  intro d hd
  have ld : Loose d := hd.bounded hx3.bounded (by norm_num)
  apply Ensures.bind (mul_spec ld la)
  rintro da ⟨tda, vda⟩
  apply Ensures.bind (mul_spec lc lb)
  rintro cb ⟨tcb, vcb⟩
  apply Ensures.bind (add_spec tda.loose tcb.loose)
  intro sum hsum
  apply Ensures.bind (square_spec (hsum.bounded tda.bounded tcb.bounded (by norm_num)))
  rintro x3_new ⟨tx3, vx3⟩
  apply Ensures.bind (sub_spec tda.loose tcb.below2p)
  intro diff hdiff
  apply Ensures.bind (square_spec (hdiff.bounded tda.bounded (by norm_num)))
  rintro diff2 ⟨tdiff2, vdiff2⟩
  apply Ensures.bind (mul_spec h1.loose tdiff2.loose)
  rintro z3_new ⟨tz3, vz3⟩
  apply Ensures.bind (mul_spec taa.loose tbb.loose)
  rintro x2_new ⟨tx2, vx2⟩
  apply Ensures.bind (mul_a24_spec le)
  rintro ea ⟨tea, vea⟩
  apply Ensures.bind (add_spec taa.loose tea.loose)
  intro aea haea
  apply Ensures.bind (mul_spec le (haea.bounded taa.bounded tea.bounded (by norm_num)))
  rintro z2_new ⟨tz2, vz2⟩
  apply Ensures.pure
  refine ⟨⟨tx2, tz2, tx3, tz3⟩, rfl, ?_⟩
  unfold Ladder.raw rawStep double diffAdd
  simp only [vx2, vz2, vx3, vz3, vaa, vbb, vda, vcb, vea, vdiff2, ha.val, hb.val, hc.val, hd.val,
    he.val, hsum.val, hdiff.val, haea.val, pow_two]

/-- One turn of the loop: the swap that is still due and the new one are one swap. -/
theorem ladder_step_spec {x1 : FieldElement} {s : Ladder} {b : Bool} (h1 : Tight x1)
    (hs : TightLadder s) (hb : s.swap = flag b) (c : Bool) :
    Ensures NoLoss (ladder_step x1 s (flag c)) fun r =>
      TightLadder r ∧ r.swap = flag c ∧ r.settled = step 121665 x1.val s.settled c := by
  obtain ⟨hx2, hz2, hx3, hz3⟩ := hs
  have hswap : s.settled.swapIf c = s.raw.swapIf (b ^^ c) := by
    rw [settled_eq hb, swapIf_swapIf]
  have hdone : ∀ r : Ladder, r.swap = flag c →
      r.raw = rawStep 121665 x1.val (s.raw.swapIf (b ^^ c)) →
      r.settled = step 121665 x1.val s.settled c := by
    intro r hr hraw
    unfold step
    rw [settled_eq hr, hraw, hswap]
  unfold ladder_step
  rw [hb, flag_xor]
  dsimp only
  rw [cswap_flag, cswap_flag]
  generalize (b ^^ c) = d at *
  cases d with
  | false =>
    apply (differential_spec h1 hx2 hz2 hx3 hz3 (flag c)).mono
    rintro r ⟨ht, hr, hraw⟩
    exact ⟨ht, hr, hdone r hr hraw⟩
  | true =>
    apply (differential_spec h1 hx3 hz3 hx2 hz2 (flag c)).mono
    rintro r ⟨ht, hr, hraw⟩
    exact ⟨ht, hr, hdone r hr hraw⟩

/-! ## The whole run -/

/-- The first `i` of the 255 bits of the scalar, the highest first. -/
def scalarBits (n i : Nat) : List Bool := (List.range i).map fun j => n.testBit (254 - j)

theorem scalarBits_succ (n i : Nat) :
    scalarBits n (i + 1) = scalarBits n i ++ [n.testBit (254 - i)] := by
  unfold scalarBits
  rw [List.range_succ, List.map_append]
  rfl

theorem ofBits_scalarBits {n i : Nat} (hn : n < 2 ^ 255) (hi : i ≤ 255) :
    ofBits (scalarBits n i) = n / 2 ^ (255 - i) := by
  induction i with
  | zero =>
    rw [Nat.sub_zero, Nat.div_eq_of_lt hn]
    rfl
  | succ i ih =>
    rw [scalarBits_succ, ofBits_snoc, ih (by omega), Nat.toNat_testBit]
    have hpow : 2 ^ (255 - i) = 2 ^ (254 - i) * 2 := by
      rw [← Nat.pow_succ]
      congr 1
      omega
    have hsub : 255 - (i + 1) = 254 - i := by omega
    rw [hsub, hpow, ← Nat.div_div_eq_div_mul]
    omega

/-- The limbs follow the ladder in the field. -/
theorem ladder_spec (k : Bytes32) {x1 : FieldElement} (h1 : Tight x1) (i : Nat) :
    Ensures NoLoss (ladder k x1 i) fun s =>
      TightLadder s ∧ (∃ b, s.swap = flag b) ∧
        s.settled = run 121665 x1.val (scalarBits (ofLe k.1) i) := by
  induction i with
  | zero =>
    apply Ensures.pure
    have hone : Tight ONE := by constructor <;> decide
    have hzero : Tight ZERO := by constructor <;> decide
    refine ⟨⟨hone, hzero, h1, hone⟩, ⟨false, rfl⟩, ?_⟩
    rw [settled_eq (b := false) rfl]
    have v1 : ONE.val = 1 := by
      unfold FieldElement.val
      exact Nat.cast_one
    have v0 : ZERO.val = 0 := by
      unfold FieldElement.val
      exact Nat.cast_zero
    unfold Ladder.raw ladder_start
    simp only [v1, v0]
    rfl
  | succ i ih =>
    unfold ladder
    apply Ensures.bind ih
    rintro s ⟨hs, ⟨b, hb⟩, hrun⟩
    rw [scalar_bit_eq]
    apply (ladder_step_spec h1 hs hb _).mono
    rintro r ⟨hr, hswap, hstep⟩
    refine ⟨hr, ⟨_, hswap⟩, ?_⟩
    rw [hstep, hrun, scalarBits_succ, run_snoc]

/-- The u-coordinate that the bytes stand for: bit 255 is not read. -/
def uCoordinate (point : Bytes32) : ZMod P := ((ofLe point.1 % 2 ^ 255 : Nat) : ZMod P)

/-- The ladder of the clamped scalar in the field, after `i` bits. -/
def ladderState (scalar point : Bytes32) (i : Nat) : State (ZMod P) :=
  run 121665 (uCoordinate point) (scalarBits (clampNat (ofLe scalar.1)) i)

/-- `x_2 * z_2^(p - 2)`. -/
def affine (p : Pair (ZMod P)) : ZMod P := p.x * p.z ^ (P - 2)

theorem from_bytes_val (point : Bytes32) : (from_bytes point).val = uCoordinate point := by
  unfold FieldElement.val uCoordinate
  rw [from_bytes_value]

theorem ladder_state_spec (scalar point : Bytes32) (i : Nat) :
    Ensures NoLoss (ladder (clamp scalar) (from_bytes point) i) fun s =>
      TightLadder s ∧ (∃ b, s.swap = flag b) ∧ s.settled = ladderState scalar point i := by
  apply (ladder_spec (clamp scalar) (from_bytes_tight point) i).mono
  rintro s ⟨hs, hb, hrun⟩
  refine ⟨hs, hb, ?_⟩
  unfold ladderState
  rw [hrun, from_bytes_val, ofLe_clamp]

theorem divide_spec {x z : FieldElement} (hx : Tight x) (hz : Tight z) : Ensures NoLoss (do
      let z_inv ← z.invert
      let r ← x.mul z_inv
      pure r.to_bytes) fun r => r.1 = le 32 (affine ⟨x.val, z.val⟩).val := by
  apply Ensures.bind (invert_spec hz.loose)
  intro zi hzi
  apply Ensures.bind (mul_spec hx.loose hzi.loose)
  rintro r ⟨hr, hv⟩
  apply Ensures.pure
  rw [to_bytes_spec hr.loose, hv, hzi.val]
  rfl

theorem x25519_scalarmult_spec (scalar point : Bytes32) :
    Ensures NoLoss (x25519_scalarmult scalar point) fun r =>
      r.1 = le 32 (affine (ladderState scalar point 255).p).val := by
  unfold x25519_scalarmult
  apply Ensures.bind (ladder_state_spec scalar point 255)
  rintro s ⟨hs, ⟨b, hb⟩, hrun⟩
  rw [← hrun, settled_eq hb]
  dsimp only
  rw [hb, cswap_flag, cswap_flag]
  -- the last swap picks the pair of the multiple itself
  cases b with
  | false => exact divide_spec hs.x2 hs.z2
  | true => exact divide_spec hs.x3 hs.z3

theorem clampNat_lt (n : Nat) : clampNat n < 2 ^ 255 := by
  unfold clampNat
  omega

theorem affine_zero {p : Pair (ZMod P)} (hz : p.z = 0) : affine p = 0 := by
  have hP : P - 2 ≠ 0 := by
    unfold P
    norm_num
  unfold affine
  rw [hz, zero_pow hP, mul_zero]

/-- The function gives the encoding of the ladder in the field, whose pairs are those of
the code after every turn; and where the formulas are right for the x-only coordinates
of some group, they stand for the multiples by the prefix of the scalar and the next. -/
theorem x25519_follows_the_ladder (scalar point : Bytes32) :
    (x25519_scalarmult scalar point).value.1 =
        le 32 (affine (ladderState scalar point 255).p).val ∧
      ((ladderState scalar point 255).p.z = 0 →
        (x25519_scalarmult scalar point).value.1 = le 32 0) ∧
      (∀ i, (ladder (clamp scalar) (from_bytes point) i).value.settled =
        ladderState scalar point i) ∧
      ∀ (E : Type) [AddCommGroup E] (Q : E) (Image : E → Pair (ZMod P) → Prop),
        XOnly Q 121665 (uCoordinate point) Image → ∀ i ≤ 255,
          Holds Q Image (clampNat (ofLe scalar.1) / 2 ^ (255 - i))
            (ladderState scalar point i) := by
  have hspec := (x25519_scalarmult_spec scalar point).2
  refine ⟨hspec, ?_, ?_, ?_⟩
  · intro hz
    rw [hspec, affine_zero hz, ZMod.val_zero]
  · intro i
    exact (ladder_state_spec scalar point i).2.2.2
  · intro E _ Q Image hx i hi
    have := run_holds hx (scalarBits (clampNat (ofLe scalar.1)) i)
    rwa [ofBits_scalarBits (clampNat_lt _) hi] at this

/-- Thirty-two zero bytes. -/
def zeros : Bytes32 := ⟨List.replicate 32 0, List.length_replicate⟩

/-- The x-coordinates over the point of order two, whose coordinate is zero. -/
def OrderTwo (Q : ZMod 2) (p : Pair (ZMod P)) : Prop := if Q = 0 then p.z = 0 else p.x = 0

theorem orderTwo_zero {p : Pair (ZMod P)} (h : OrderTwo 0 p) : p.z = 0 := by
  unfold OrderTwo at h
  rwa [if_pos rfl] at h

theorem orderTwo_xOnly (a24 : ZMod P) : XOnly (1 : ZMod 2) a24 0 OrderTwo where
  zero := rfl
  base := rfl
  double Q p hp := by
    have hQ : Q + Q = 0 := CharTwo.add_self_eq_zero Q
    have hxz : p.x * p.z = 0 := by
      unfold OrderTwo at hp
      split at hp <;> simp [hp]
    unfold OrderTwo
    rw [if_pos hQ]
    unfold MontgomeryLadder.double
    linear_combination (4 * ((p.x + p.z) ^ 2 + a24 * ((p.x + p.z) ^ 2 - (p.x - p.z) ^ 2))) * hxz
  diffAdd Q p q hp hq := by
    have hQ : Q + (Q + 1) ≠ 0 := by
      rw [← add_assoc, CharTwo.add_self_eq_zero, zero_add]
      exact one_ne_zero
    have hprod : p.x * q.x = 0 ∧ p.z * q.z = 0 := by
      have hcases : ∀ R : ZMod 2, R = 0 ∨ R = 1 := by decide
      unfold OrderTwo at hp hq
      rcases hcases Q with rfl | rfl
      · rw [if_pos rfl] at hp
        rw [if_neg (by decide)] at hq
        simp [hp, hq]
      · rw [if_neg (by decide)] at hp
        rw [if_pos (by decide)] at hq
        simp [hp, hq]
    unfold OrderTwo
    rw [if_neg hQ]
    unfold MontgomeryLadder.diffAdd
    linear_combination (4 * (p.x * q.x - 2 * p.z * q.z)) * hprod.1 + 4 * p.z * q.z * hprod.2

/-- On the point of order two the result is zero. -/
theorem x25519_of_zeros : (x25519_scalarmult zeros zeros).value.1 = le 32 0 := by
  have hladder := x25519_follows_the_ladder zeros zeros
  have hu : uCoordinate zeros = 0 := by
    unfold uCoordinate
    rw [show ofLe zeros.1 = 0 from rfl, Nat.zero_mod, Nat.cast_zero]
  have himage := hladder.2.2.2 (ZMod 2) 1 OrderTwo (hu ▸ orderTwo_xOnly 121665) 255 (by decide)
  have heven : ∀ m : Nat, (m * 2) • (1 : ZMod 2) = 0 := by
    intro m
    rw [mul_nsmul', two_nsmul, CharTwo.add_self_eq_zero, nsmul_zero]
  have hn : clampNat (ofLe zeros.1) / 2 ^ (255 - 255) = 2 ^ 253 * 2 := by
    rw [show ofLe zeros.1 = 0 from rfl]
    unfold clampNat
    norm_num
  unfold Holds at himage
  rw [hn, heven] at himage
  exact hladder.2.1 (orderTwo_zero himage.1)

end paideia_as_crypto.curve
