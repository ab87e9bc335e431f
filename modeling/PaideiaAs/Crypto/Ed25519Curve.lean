-- The curve of Ed25519 with the constants of the code: `p` is prime, the addition law is
-- complete, the base point has the order `L`, and a point is decoded from its encoding.
import PaideiaAs.Crypto.Ed25519Point
import PaideiaAs.Lib.Primes
import Mathlib.FieldTheory.Finite.Basic

namespace paideia_as_crypto.curve.ed25519

open Bytes Edwards Primes
open Nat (cast_add cast_mul cast_one cast_zero)

/-! ## The field -/

/-- The prime factors of `p - 1`, and those of their predecessors. -/
def pCertificate : List Entry :=
  [⟨32573, 2, [(2, 2), (17, 1), (479, 1)]⟩,
    ⟨65147, 2, [(2, 1), (32573, 1)]⟩,
    ⟨57467, 2, [(2, 1), (59, 1), (487, 1)]⟩,
    ⟨132049, 26, [(2, 4), (3, 2), (7, 1), (131, 1)]⟩,
    ⟨1923133, 2, [(2, 2), (3, 1), (43, 1), (3727, 1)]⟩,
    ⟨430751, 17, [(2, 1), (5, 3), (1723, 1)]⟩,
    ⟨31757755568855353, 10, [(2, 3), (3, 1), (31, 1), (107, 1), (223, 1), (4153, 1), (430751, 1)]⟩,
    ⟨37853, 2, [(2, 2), (9463, 1)]⟩,
    ⟨75707, 2, [(2, 1), (37853, 1)]⟩,
    ⟨569003, 2, [(2, 1), (7, 1), (97, 1), (419, 1)]⟩,
    ⟨2773320623, 5, [(2, 1), (2437, 1), (569003, 1)]⟩,
    ⟨72106336199, 7, [(2, 1), (13, 1), (2773320623, 1)]⟩,
    ⟨8574133, 2, [(2, 2), (3, 1), (7, 1), (103, 1), (991, 1)]⟩,
    ⟨1919519569386763, 2, [(2, 1), (3, 1), (7, 1), (19, 1), (47, 2), (127, 1), (8574133, 1)]⟩,
    ⟨75445702479781427272750846543864801, 7,
      [(2, 5), (3, 2), (5, 2), (75707, 1), (72106336199, 1), (1919519569386763, 1)]⟩,
    ⟨74058212732561358302231226437062788676166966415465897661863160754340907, 2,
      [(2, 1), (3, 1), (353, 1), (57467, 1), (132049, 1), (1923133, 1), (31757755568855353, 1),
        (75445702479781427272750846543864801, 1)]⟩]

theorem prime_p : P.Prime := by
  apply @prime_of_certificate pCertificate (⟨P, 2, [(2, 2), (3, 1), (65147, 1),
    (74058212732561358302231226437062788676166966415465897661863160754340907, 1)]⟩)
  decide +kernel

instance : Fact P.Prime := ⟨prime_p⟩

/-- A computation with numbers gives an equation of the field. -/
theorem cast_eq {a b : Nat} (h : a % P = b % P) : (a : ZMod P) = (b : ZMod P) :=
  (ZMod.natCast_eq_natCast_iff' a b P).2 h

theorem from_bytes_val_of_lt {bytes : Bytes32} (h : ofLe bytes.1 < 2 ^ 255) :
    (FieldElement.from_bytes bytes).val = (ofLe bytes.1 : ZMod P) := by
  rw [from_bytes_val]
  unfold uCoordinate
  rw [Nat.mod_eq_of_lt h]

theorem dCoefficient_eq : dCoefficient = (ofLe D_LE.1 : ZMod P) :=
  from_bytes_val_of_lt (by decide)

theorem rootOfMinusOne_sq : rootOfMinusOne * rootOfMinusOne = -1 := by
  have hroot : rootOfMinusOne = (ofLe SQRT_M1_LE.1 : ZMod P) :=
    from_bytes_val_of_lt (by decide)
  have h : ((ofLe SQRT_M1_LE.1 * ofLe SQRT_M1_LE.1 + 1 : Nat) : ZMod P) = ((0 : Nat) : ZMod P) :=
    cast_eq (by decide)
  rw [cast_add, cast_mul, ← hroot, cast_one, cast_zero] at h
  exact eq_neg_of_add_eq_zero_left h

theorem two_ne_zero : (2 : ZMod P) ≠ 0 := by
  intro h
  have hdvd : P ∣ 2 := (ZMod.natCast_eq_zero_iff 2 P).1 (by exact_mod_cast h)
  have := Nat.le_of_dvd (by decide) hdvd
  unfold P at this
  omega

/-- The criterion of Euler: half of `p - 1` takes `d` to -1. -/
theorem dCoefficient_not_square (r : ZMod P) : r ^ 2 ≠ dCoefficient := by
  intro h
  have hhalf : (P - 1) / 2 < 2 ^ 255 := by decide
  have hpow : ((powMod P 255 (ofLe D_LE.1) ((P - 1) / 2) : Nat) : ZMod P) =
      ((P - 1 : Nat) : ZMod P) := cast_eq (by decide +kernel)
  rw [cast_powMod hhalf, ← dCoefficient_eq, ← h, ← pow_mul] at hpow
  have hexp : 2 * ((P - 1) / 2) = P - 1 := by decide
  have hneg : ((P - 1 : Nat) : ZMod P) = -1 := by
    rw [Nat.cast_sub prime_p.one_lt.le, ZMod.natCast_self, cast_one, zero_sub]
  rw [hexp, hneg] at hpow
  by_cases hr : r = 0
  · rw [hr, zero_pow (Nat.sub_ne_zero_of_lt prime_p.one_lt)] at hpow
    exact one_ne_zero (neg_eq_zero.1 hpow.symm)
  · rw [ZMod.pow_card_sub_one_eq_one hr] at hpow
    apply two_ne_zero
    linear_combination hpow

instance : Fact (Complete dCoefficient) :=
  ⟨⟨two_ne_zero, ⟨rootOfMinusOne, by rw [pow_two, rootOfMinusOne_sq]⟩, dCoefficient_not_square⟩⟩

/-! ## The base point -/

def BASE_COMPRESSED : Bytes32 := ⟨0x58 :: List.replicate 31 0x66, rfl⟩

def L_LE : Bytes32 :=
  ⟨[0xed, 0xd3, 0xf5, 0x5c, 0x1a, 0x63, 0x12, 0x58,
    0xd6, 0x9c, 0xf7, 0xa2, 0xde, 0xf9, 0xde, 0x14,
    0x00, 0x00, 0x00, 0x00, 0x00, 0x00, 0x00, 0x00,
    0x00, 0x00, 0x00, 0x00, 0x00, 0x00, 0x00, 0x10], rfl⟩

/-- `L`. -/
def L : Nat := ofLe L_LE.1

/-- The coordinates of the base point. -/
def baseX : Nat := 15112221349535400772501151409588531511454012693041857206046113283949847762202

def baseY : Nat := 46316835694926478169428394003475163141307993866256225615783033603165251855960

theorem base_on_curve : OnCurve dCoefficient (baseX : ZMod P) (baseY : ZMod P) := by
  have h : ((baseY ^ 2 : Nat) : ZMod P) =
      ((1 + ofLe D_LE.1 * baseX ^ 2 * baseY ^ 2 + baseX ^ 2 : Nat) : ZMod P) :=
    cast_eq (by decide)
  push_cast at h
  unfold OnCurve
  rw [dCoefficient_eq]
  linear_combination h

def base : Edwards.Point dCoefficient := ⟨baseX, baseY, base_on_curve⟩

/-! ## Its order -/

/-- A difference of numbers, as a number. -/
def subMod (a b : Nat) : Nat := (a + (P - b % P)) % P

theorem cast_subMod (a b : Nat) : ((subMod a b : Nat) : ZMod P) = a - b := by
  have hle : b % P ≤ P := (Nat.mod_lt b prime_p.pos).le
  unfold subMod
  rw [ZMod.natCast_mod, cast_add, Nat.cast_sub hle, ZMod.natCast_self, ZMod.natCast_mod,
    zero_sub, sub_eq_add_neg]

/-- The doubling and the addition on numbers below `p`. -/
def doubleMod (e : Extended Nat) : Extended Nat :=
  let a := e.x * e.x % P
  let b := e.y * e.y % P
  let s := 2 * (e.x * e.y) % P
  let g := subMod b a
  let f := subMod g (2 * (e.z * e.z) % P)
  let h := subMod 0 (a + b)
  ⟨s * f % P, g * h % P, f * g % P, s * h % P⟩

def addMod (e f : Extended Nat) : Extended Nat :=
  let a := subMod e.y e.x * subMod f.y f.x % P
  let b := (e.y + e.x) * (f.y + f.x) % P
  let c := e.t * f.t % P * (2 * ofLe D_LE.1) % P
  let w := 2 * (e.z * f.z) % P
  ⟨subMod b a * subMod w c % P, (w + c) * (b + a) % P, subMod w c * (w + c) % P,
    subMod b a * (b + a) % P⟩

def castMod (e : Extended Nat) : Extended (ZMod P) := ⟨e.x, e.y, e.z, e.t⟩

theorem cast_doubleMod (e : Extended Nat) : castMod (doubleMod e) = (castMod e).double := by
  unfold castMod doubleMod Extended.double
  simp only [ZMod.natCast_mod, cast_mul, cast_subMod, cast_add, Nat.cast_ofNat,
    cast_zero, Extended.mk.injEq]
  refine ⟨?_, ?_, ?_, ?_⟩ <;> ring

theorem cast_addMod (e f : Extended Nat) :
    castMod (addMod e f) = (castMod e).add (dCoefficient + dCoefficient) (castMod f) := by
  unfold castMod addMod Extended.add
  rw [dCoefficient_eq]
  simp only [ZMod.natCast_mod, cast_mul, cast_subMod, cast_add, Nat.cast_ofNat,
    Extended.mk.injEq, and_true]
  refine ⟨?_, ?_, ?_⟩ <;> ring

def baseMod : Extended Nat := ⟨baseX, baseY, 1, baseX * baseY % P⟩

/-- The multiple of the base point by a number of `k` bits. -/
def multipleMod : Nat → Nat → Extended Nat
  | 0, _ => ⟨0, 1, 1, 0⟩
  | k + 1, n =>
    if n % 2 = 1 then addMod (doubleMod (multipleMod k (n / 2))) baseMod
    else doubleMod (multipleMod k (n / 2))

theorem represents_base : Represents base (castMod baseMod) := by
  have h := represents_affine base
  unfold castMod baseMod
  rwa [cast_one, ZMod.natCast_mod, cast_mul]

theorem represents_multipleMod {k n : Nat} (hn : n < 2 ^ k) :
    Represents (n • base) (castMod (multipleMod k n)) := by
  induction k generalizing n with
  | zero =>
    obtain rfl : n = 0 := Nat.lt_one_iff.1 hn
    unfold multipleMod castMod
    rw [zero_nsmul, cast_zero, cast_one]
    exact represents_zero
  | succ k ih =>
    have hhalf : n / 2 < 2 ^ k := by
      rw [pow_succ] at hn
      omega
    have hdouble := represents_double (ih hhalf)
    rw [← add_nsmul, ← cast_doubleMod] at hdouble
    unfold multipleMod
    split
    · have hodd : n / 2 + n / 2 + 1 = n := by omega
      have hadd := represents_add hdouble represents_base
      rwa [← succ_nsmul, hodd, ← cast_addMod] at hadd
    · have heven : n / 2 + n / 2 = n := by omega
      rwa [heven] at hdouble

theorem order_base : L • base = 0 := by
  have h := represents_multipleMod (k := 253) (n := L) (by decide)
  have hx : (multipleMod 253 L).x = 0 := by decide +kernel
  have hy : (multipleMod 253 L).y = (multipleMod 253 L).z := by decide +kernel
  obtain ⟨hz, h1, h2, -⟩ := h
  unfold castMod at hz h1 h2
  dsimp only at hz h1 h2
  rw [hx, cast_zero] at h1
  rw [hy] at h2
  apply Edwards.Point.ext
  · exact (mul_eq_zero.1 h1.symm).resolve_right hz
  · exact mul_right_cancel₀ hz (by rw [← h2, zero_y, one_mul])

/-! ## Decoding what is encoded -/

theorem pow_sub_two {v : ZMod P} (hv : v ≠ 0) : v ^ (P - 2) * v = 1 := by
  have hsucc : P - 2 + 1 = P - 1 := by
    have := prime_p.two_le
    omega
  rw [← pow_succ, hsucc, ZMod.pow_card_sub_one_eq_one hv]

theorem denominator_ne_zero (y : ZMod P) : dCoefficient * (y * y) + 1 ≠ 0 := by
  intro h
  by_cases hy : y = 0
  · rw [hy, mul_zero, mul_zero, zero_add] at h
    exact one_ne_zero h
  · apply dCoefficient_not_square (rootOfMinusOne / y)
    rw [div_pow, div_eq_iff (pow_ne_zero 2 hy)]
    linear_combination rootOfMinusOne_sq - h

/-- The equation of the curve, solved for `x^2`. -/
theorem xSquared_eq {x y : ZMod P} (h : OnCurve dCoefficient x y) : xSquared y = x * x := by
  have hinv := pow_sub_two (denominator_ne_zero y)
  unfold OnCurve at h
  unfold xSquared
  linear_combination (x * x) * hinv + (dCoefficient * (y * y) + 1) ^ (P - 2) * h

/-- Half of `p - 1` takes every element to a sign. -/
theorem pow_half {x : ZMod P} (hx : x ≠ 0) : x ^ ((P - 1) / 2) = 1 ∨ x ^ ((P - 1) / 2) = -1 := by
  have hexp : (P - 1) / 2 * 2 = P - 1 := by decide
  have hsq : x ^ ((P - 1) / 2) * x ^ ((P - 1) / 2) = 1 := by
    rw [← pow_two, ← pow_mul, hexp, ZMod.pow_card_sub_one_eq_one hx]
  exact mul_self_eq_one_iff.1 hsq

/-- The candidate is a root up to the sign of its square. -/
theorem candidate_sq (x : ZMod P) :
    x * x * (x * x) ^ ((P - 5) / 8) * (x * x * (x * x) ^ ((P - 5) / 8)) =
      x * x * x ^ ((P - 1) / 2) := by
  have hexp : (P - 1) / 2 = 2 + 2 * ((P - 5) / 8) + 2 * ((P - 5) / 8) := by decide
  rw [hexp, pow_add, pow_add, ← pow_two x, ← pow_mul]
  ring

theorem recoveredX_of_point {x y : ZMod P} (h : OnCurve dCoefficient x y) :
    ∃ r, recoveredX y = some r ∧ r * r = x * x := by
  have hc := candidate_sq x
  unfold recoveredX chosenRoot
  rw [xSquared_eq h]
  generalize x * x * (x * x) ^ ((P - 5) / 8) = c at *
  by_cases hroot : c * c = x * x
  · rw [if_pos hroot]
    exact ⟨c, rfl, hroot⟩
  · have hx : x ≠ 0 := by
      intro hx
      apply hroot
      rw [hc, hx, zero_mul, zero_mul]
    have hneg : c * c = -(x * x) := by
      rcases pow_half hx with hs | hs
      · rw [hs, mul_one] at hc
        exact absurd hc hroot
      · rw [hc, hs, mul_neg_one]
    have hsecond : c * rootOfMinusOne * (c * rootOfMinusOne) = x * x := by
      linear_combination rootOfMinusOne * rootOfMinusOne * hneg - x * x * rootOfMinusOne_sq
    rw [if_neg hroot, if_pos hsecond]
    exact ⟨_, rfl, hsecond⟩

theorem signedX_of_root {x r : ZMod P} (h : r * r = x * x) : signedX r (x.val % 2) = x := by
  unfold signedX
  rcases mul_self_eq_mul_self_iff.1 h with rfl | rfl
  · rw [if_neg (not_not_intro rfl)]
  · have hodd : P % 2 = 1 := by decide
    have hlt := ZMod.val_lt x
    rw [ZMod.neg_val]
    by_cases hx : x = 0
    · rw [if_pos hx, hx, ZMod.val_zero, if_neg (not_not_intro rfl), neg_zero]
    · rw [if_neg hx, if_pos (by omega), zero_sub, neg_neg]

theorem decoded_encoded (p : Edwards.Point dCoefficient) :
    decoded (encoded p.x p.y) = some ⟨p.x, p.y, 1, p.x * p.y⟩ := by
  have hy := val_lt p.y
  have hlow : encoded p.x p.y % 2 ^ 255 = p.y.val := by
    unfold encoded
    omega
  have hhigh : encoded p.x p.y / 2 ^ 255 = p.x.val % 2 := by
    unfold encoded
    omega
  obtain ⟨r, hr, hsq⟩ := recoveredX_of_point p.on_curve
  have hzero : ¬(r = 0 ∧ p.x.val % 2 = 1) := by
    rintro ⟨rfl, hone⟩
    rw [mul_zero] at hsq
    rw [mul_self_eq_zero.1 hsq.symm, ZMod.val_zero] at hone
    exact absurd hone (by decide)
  have hbelow : ¬P ≤ p.y.val := Nat.not_le.2 (ZMod.val_lt p.y)
  unfold decoded
  rw [hlow, hhigh, if_neg hbelow, ZMod.natCast_zmod_val, hr]
  dsimp only
  rw [if_neg hzero, signedX_of_root hsq]

theorem encoded_lt (x y : ZMod P) : encoded x y < 2 ^ 256 := by
  have hy := val_lt y
  unfold encoded
  omega

theorem encoded_base : encoded base.x base.y = ofLe BASE_COMPRESSED.1 := by
  have hx : base.x.val = baseX := ZMod.val_natCast_of_lt (by decide)
  have hy : base.y.val = baseY := ZMod.val_natCast_of_lt (by decide)
  unfold encoded
  rw [hx, hy]
  decide

end paideia_as_crypto.curve.ed25519
