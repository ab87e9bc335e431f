-- The curve P-256 with the constants of the code: its field, the base point and the order
-- of its group.
import PaideiaAs.Crypto.P256Field
import PaideiaAs.Lib.Primes
import PaideiaAs.Lib.ShortWeierstrass
import Mathlib.FieldTheory.Finite.Basic

namespace paideia_as_crypto.ecdsa_p256

open Limbs Primes ShortWeierstrass
open Nat (cast_mul)

/-! ## The two primes -/

/-- The number of the modulus of the field. -/
abbrev fieldPrime : Nat := val P.1

/-- The number of the order of the group. -/
abbrev groupOrder : Nat := val N.1

def pCertificate : List Entry :=
  [⟨65537, 3, [(2, 16)]⟩,
    ⟨490463, 14, [(2, 1), (7, 1), (53, 1), (661, 1)]⟩,
    ⟨17449, 14, [(2, 3), (3, 1), (727, 1)]⟩,
    ⟨6700417, 5, [(2, 7), (3, 1), (17449, 1)]⟩,
    ⟨204061199, 11, [(2, 1), (11, 1), (23, 1), (107, 1), (3769, 1)]⟩,
    ⟨34282281433, 17, [(2, 3), (3, 1), (7, 1), (204061199, 1)]⟩,
    ⟨66417393611, 6, [(2, 1), (5, 1), (53, 1), (173, 1), (197, 1), (3677, 1)]⟩,
    ⟨11290956913871, 13, [(2, 1), (5, 1), (17, 1), (66417393611, 1)]⟩,
    ⟨18169, 11, [(2, 3), (3, 1), (757, 1)]⟩,
    ⟨78283, 3, [(2, 1), (3, 2), (4349, 1)]⟩,
    ⟨704251, 2, [(2, 1), (3, 2), (5, 3), (313, 1)]⟩,
    ⟨46076956964474543, 5, [(2, 1), (23, 1), (18169, 1), (78283, 1), (704251, 1)]⟩,
    ⟨774023187263532362759620327192479577272145303, 3,
      [(2, 1), (3, 2), (2411, 1), (34282281433, 1), (11290956913871, 1), (46076956964474543, 1)]⟩,
    ⟨835945042244614951780389953367877943453916927241, 11,
      [(2, 3), (3, 3), (5, 1), (774023187263532362759620327192479577272145303, 1)]⟩]

def nCertificate : List Entry :=
  [⟨17449, 14, [(2, 3), (3, 1), (727, 1)]⟩,
    ⟨38189, 2, [(2, 2), (9547, 1)]⟩,
    ⟨9350987, 2, [(2, 1), (17, 1), (229, 1), (1201, 1)]⟩,
    ⟨187019741, 2, [(2, 2), (5, 1), (9350987, 1)]⟩,
    ⟨311245691, 2, [(2, 1), (5, 1), (7, 1), (17, 1), (29, 2), (311, 1)]⟩,
    ⟨622491383, 5, [(2, 1), (311245691, 1)]⟩,
    ⟨126241, 7, [(2, 5), (3, 1), (5, 1), (263, 1)]⟩,
    ⟨104471, 11, [(2, 1), (5, 1), (31, 1), (337, 1)]⟩,
    ⟨3969899, 2, [(2, 1), (19, 1), (104471, 1)]⟩,
    ⟨1002328039319, 19, [(2, 1), (126241, 1), (3969899, 1)]⟩,
    ⟨16879, 3, [(2, 1), (3, 1), (29, 1), (97, 1)]⟩,
    ⟨155317, 5, [(2, 2), (3, 1), (7, 1), (43, 2)]⟩,
    ⟨191039911, 3, [(2, 1), (3, 1), (5, 1), (41, 1), (155317, 1)]⟩,
    ⟨208150935158385979, 2,
      [(2, 1), (3, 1), (11, 1), (43, 1), (127, 1), (3023, 1), (191039911, 1)]⟩,
    ⟨2624747550333869278416773953, 7,
      [(2, 6), (3, 2), (1297, 1), (16879, 1), (208150935158385979, 1)]⟩]

theorem primes : fieldPrime.Prime ∧ groupOrder.Prime := by
  constructor
  · apply @prime_of_certificate pCertificate (⟨fieldPrime, 6, [(2, 1), (3, 1), (5, 2),
      (17, 1), (257, 1), (641, 1), (1531, 1), (65537, 1), (490463, 1), (6700417, 1),
      (835945042244614951780389953367877943453916927241, 1)]⟩)
    decide +kernel
  · apply @prime_of_certificate nCertificate (⟨groupOrder, 7, [(2, 4), (3, 1), (71, 1),
      (131, 1), (373, 1), (3407, 1), (17449, 1), (38189, 1), (187019741, 1), (622491383, 1),
      (1002328039319, 1), (2624747550333869278416773953, 1)]⟩)
    decide +kernel

theorem prime_p : fieldPrime.Prime := primes.1

theorem prime_n : groupOrder.Prime := primes.2

instance : Fact fieldPrime.Prime := ⟨prime_p⟩

instance : Fact groupOrder.Prime := ⟨prime_n⟩

/-- A computation with numbers gives an equation of the field. -/
theorem cast_eq {a b : Nat} (h : a % fieldPrime = b % fieldPrime) :
    (a : ZMod fieldPrime) = (b : ZMod fieldPrime) :=
  (ZMod.natCast_eq_natCast_iff' a b fieldPrime).2 h

theorem two_ne_zero : (2 : ZMod fieldPrime) ≠ 0 := by
  intro h
  have hdvd : fieldPrime ∣ 2 := (ZMod.natCast_eq_zero_iff 2 _).1 (by exact_mod_cast h)
  have hgt : 2 < fieldPrime := by decide
  exact absurd (Nat.le_of_dvd (by decide) hdvd) (Nat.not_le.2 hgt)

theorem pow_sub_two {q : Nat} [hq : Fact q.Prime] {v : ZMod q} (hv : v ≠ 0) :
    v ^ (q - 2) * v = 1 := by
  have hsucc : q - 2 + 1 = q - 1 := by
    have := hq.out.two_le
    omega
  rw [← pow_succ, hsucc, ZMod.pow_card_sub_one_eq_one hv]

theorem holds_inv_p {v : ZMod fieldPrime} {a : Words 8} (ha : Holds P v a) :
    Holds P (v ^ (fieldPrime - 2)) (inv_p a) := by
  have hexp : val P_MINUS_2.1 = fieldPrime - 2 := by decide
  rw [← hexp]
  exact holds_pow prime_p.one_lt ha P_MINUS_2

theorem holds_inv_n {v : ZMod groupOrder} {a : Words 8} (ha : Holds N v a) :
    Holds N (v ^ (groupOrder - 2)) (inv_n a) := by
  have hexp : val N_MINUS_2.1 = groupOrder - 2 := by decide
  rw [← hexp]
  exact holds_pow prime_n.one_lt ha N_MINUS_2

/-! ## The curve and its base point -/

/-- The constant term. -/
def B_COEFF : Words 8 :=
  ⟨[0x27D2604B, 0x3BCE3C3E, 0xCC53B0F6, 0x651D06B0,
    0x769886BC, 0xB3EBBD55, 0xAA3A93E7, 0x5AC635D8], rfl⟩

def GX : Words 8 :=
  ⟨[0xD898C296, 0xF4A13945, 0x2DEB33A0, 0x77037D81,
    0x63A440F2, 0xF8BCE6E5, 0xE12C4247, 0x6B17D1F2], rfl⟩

def GY : Words 8 :=
  ⟨[0x37BF51F5, 0xCBB64068, 0x6B315ECE, 0x2BCE3357,
    0x7C0F9E16, 0x8EE7EB4A, 0xFE1A7F9B, 0x4FE342E2], rfl⟩

def bCoefficient : ZMod fieldPrime := (val B_COEFF.1 : ZMod fieldPrime)

abbrev Curve : WeierstrassCurve.Affine (ZMod fieldPrime) := curve bCoefficient

/-- The discriminant does not vanish. -/
theorem nonsingular_of_equation {x y : ZMod fieldPrime} (h : Curve.Equation x y) :
    Curve.Nonsingular x y := by
  rw [← WeierstrassCurve.Affine.equation_iff_nonsingular_of_Δ_ne_zero]
  · exact h
  · have hnat : (16 * 27 * val B_COEFF.1 ^ 2) % fieldPrime ≠ (16 * 4 * 27) % fieldPrime := by
      decide
    intro hdelta
    apply hnat
    rw [← ZMod.natCast_eq_natCast_iff']
    push_cast
    change (16 * 27 * bCoefficient ^ 2 : ZMod fieldPrime) = 16 * 4 * 27
    unfold WeierstrassCurve.Δ WeierstrassCurve.b₂ WeierstrassCurve.b₄ WeierstrassCurve.b₆
      WeierstrassCurve.b₈ Curve curve at hdelta
    linear_combination -hdelta

theorem base_nonsingular :
    Curve.Nonsingular (val GX.1 : ZMod fieldPrime) (val GY.1 : ZMod fieldPrime) := by
  apply nonsingular_of_equation
  rw [equation_iff]
  have h : ((val GY.1 ^ 2 + 3 * val GX.1 : Nat) : ZMod fieldPrime) =
      ((val GX.1 ^ 3 + val B_COEFF.1 : Nat) : ZMod fieldPrime) := cast_eq (by decide)
  push_cast at h
  unfold bCoefficient
  linear_combination h

/-- The base point. -/
def G : Curve.Point := .some _ _ base_nonsingular

theorem base_ne_zero : G ≠ 0 := WeierstrassCurve.Affine.Point.some_ne_zero base_nonsingular

/-! ## Its order -/

def subMod (a b : Nat) : Nat := (a + (fieldPrime - b % fieldPrime)) % fieldPrime

theorem cast_subMod (a b : Nat) : ((subMod a b : Nat) : ZMod fieldPrime) = a - b := by
  have hle : b % fieldPrime ≤ fieldPrime := (Nat.mod_lt b prime_p.pos).le
  unfold subMod
  rw [ZMod.natCast_mod, Nat.cast_add, Nat.cast_sub hle, ZMod.natCast_self, ZMod.natCast_mod,
    zero_sub, sub_eq_add_neg]

/-- The doubling and the addition on numbers below `p`. -/
def tangentMod (p : Triple Nat) : Triple Nat :=
  let delta := p.z * p.z % fieldPrime
  let gamma := p.y * p.y % fieldPrime
  let beta := p.x * gamma % fieldPrime
  let alpha := 3 * (subMod p.x delta * (p.x + delta)) % fieldPrime
  let x := subMod (alpha * alpha) (8 * beta)
  ⟨x, subMod (alpha * subMod (4 * beta) x) (8 * (gamma * gamma)), 2 * p.y * p.z % fieldPrime⟩

def chordMod (p q : Triple Nat) : Triple Nat :=
  let zz := p.z * p.z % fieldPrime
  let ww := q.z * q.z % fieldPrime
  let u1 := p.x * ww % fieldPrime
  let s1 := p.y * (ww * q.z) % fieldPrime
  let h := subMod (q.x * zz) u1
  let r := subMod (q.y * (zz * p.z)) s1
  let hh := h * h % fieldPrime
  let hhh := hh * h % fieldPrime
  let v := u1 * hh % fieldPrime
  let x := subMod (subMod (r * r) (2 * v)) hhh
  ⟨x, subMod (r * subMod v x) (s1 * hhh), p.z * q.z * h % fieldPrime⟩

def castMod (p : Triple Nat) : Triple (ZMod fieldPrime) := ⟨p.x, p.y, p.z⟩

variable (p : Triple Nat)

theorem cast_tangentMod : castMod (tangentMod p) = (castMod p).tangent := by
  unfold castMod tangentMod Triple.tangent
  simp only [ZMod.natCast_mod, cast_mul, cast_subMod, Nat.cast_add, Nat.cast_ofNat, Triple.mk.injEq]
  refine ⟨?_, ?_, ?_⟩ <;> ring

theorem cast_chordMod (p q : Triple Nat) :
    castMod (chordMod p q) = (castMod p).chord (castMod q) := by
  unfold castMod chordMod Triple.chord
  simp only [ZMod.natCast_mod, cast_mul, cast_subMod, Nat.cast_ofNat, Triple.mk.injEq, and_true]
  refine ⟨?_, ?_⟩ <;> ring

def doubleMod (p : Triple Nat) : Triple Nat :=
  if p.z % fieldPrime = 0 then ⟨1, 1, 0⟩ else tangentMod p

def addMod (p q : Triple Nat) : Triple Nat :=
  if p.z % fieldPrime = 0 then q
  else if q.z % fieldPrime = 0 then p
  else if p.x * (q.z * q.z) % fieldPrime = q.x * (p.z * p.z) % fieldPrime then
    if p.y * (q.z * q.z * q.z) % fieldPrime = q.y * (p.z * p.z * p.z) % fieldPrime then
      doubleMod p
    else ⟨1, 1, 0⟩
  else chordMod p q

theorem cast_z_eq_zero : p.z % fieldPrime = 0 ↔ (castMod p).z = 0 := by
  unfold castMod
  rw [ZMod.natCast_eq_zero_iff, Nat.dvd_iff_mod_eq_zero]

theorem cast_identity : castMod ⟨1, 1, 0⟩ = identity := by
  unfold castMod identity
  rw [Nat.cast_one, Nat.cast_zero]

theorem cast_doubleMod : castMod (doubleMod p) = (castMod p).double := by
  unfold doubleMod Triple.double
  rw [apply_ite castMod, cast_tangentMod, cast_identity]
  exact if_congr (cast_z_eq_zero p) rfl rfl

theorem cast_addMod (p q : Triple Nat) : castMod (addMod p q) = (castMod p).add (castMod q) := by
  have hcross : ∀ a b c d : Nat, a * b % fieldPrime = c * d % fieldPrime ↔
      (a : ZMod fieldPrime) * b = c * d := by
    intro a b c d
    rw [← ZMod.natCast_eq_natCast_iff', cast_mul, cast_mul]
  have hU : p.x * (q.z * q.z) % fieldPrime = q.x * (p.z * p.z) % fieldPrime ↔
      (castMod p).x * ((castMod q).z * (castMod q).z) =
        (castMod q).x * ((castMod p).z * (castMod p).z) := by
    rw [hcross, cast_mul, cast_mul]
    rfl
  have hS : p.y * (q.z * q.z * q.z) % fieldPrime = q.y * (p.z * p.z * p.z) % fieldPrime ↔
      (castMod p).y * ((castMod q).z * (castMod q).z * (castMod q).z) =
        (castMod q).y * ((castMod p).z * (castMod p).z * (castMod p).z) := by
    rw [hcross, cast_mul, cast_mul, cast_mul, cast_mul]
    rfl
  unfold addMod Triple.add
  simp only [apply_ite castMod, cast_chordMod, cast_doubleMod, cast_identity]
  exact if_congr (cast_z_eq_zero p) rfl (if_congr (cast_z_eq_zero q) rfl
    (if_congr hU (if_congr hS rfl rfl) rfl))

/-- The multiple of the base point by a number of `k` bits. -/
def multipleMod : Nat → Nat → Triple Nat
  | 0, _ => ⟨1, 1, 0⟩
  | k + 1, n =>
    if n % 2 = 1 then addMod (doubleMod (multipleMod k (n / 2))) ⟨val GX.1, val GY.1, 1⟩
    else doubleMod (multipleMod k (n / 2))

theorem stands_base : Stands G (castMod ⟨val GX.1, val GY.1, 1⟩) := by
  have h := stands_affine base_nonsingular
  unfold castMod
  rwa [Nat.cast_one]

theorem stands_multipleMod {k n : Nat} (hn : n < 2 ^ k) :
    Stands (n • G) (castMod (multipleMod k n)) := by
  induction k generalizing n with
  | zero =>
    obtain rfl : n = 0 := Nat.lt_one_iff.1 hn
    unfold multipleMod
    rw [zero_nsmul, cast_identity]
    exact stands_identity
  | succ k ih =>
    have hhalf : n / 2 < 2 ^ k := by
      rw [pow_succ] at hn
      omega
    have hdouble := stands_double two_ne_zero (ih hhalf)
    rw [← add_nsmul, ← cast_doubleMod] at hdouble
    unfold multipleMod
    split
    · have hodd : n / 2 + n / 2 + 1 = n := by omega
      have hadd := stands_add two_ne_zero hdouble stands_base
      rwa [← succ_nsmul, hodd, ← cast_addMod] at hadd
    · have heven : n / 2 + n / 2 = n := by omega
      rwa [heven] at hdouble

theorem order_base : groupOrder • G = 0 := by
  have h := stands_multipleMod (k := 256) (n := groupOrder) (by decide)
  have hz : (multipleMod 256 groupOrder).z = 0 := by decide +kernel
  rw [h.eq_zero_iff, ← cast_z_eq_zero, hz, Nat.zero_mod]

end paideia_as_crypto.ecdsa_p256
