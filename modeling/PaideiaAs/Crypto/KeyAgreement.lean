-- X25519 on the curve: the function gives the coordinate of the multiple of a point, so the
-- two parties of an exchange come to one secret.
import PaideiaAs.Crypto.Ed25519Curve
import PaideiaAs.Lib.MontgomeryCurve
import Mathlib.FieldTheory.IsAlgClosed.AlgebraicClosure

namespace paideia_as_crypto.curve

open Trace Bytes MontgomeryLadder MontgomeryCurve

/-- The multiple of the base point `u = 9`. -/
def x25519_public_from_secret (secret : Bytes32) : Field Bytes32 :=
  x25519_scalarmult secret (set_byte zeros 0 9)

/-! ## The points -/

/-- Every coordinate belongs to points of the curve over the algebraic closure. -/
abbrev Closed : Type := AlgebraicClosure (ZMod P)

noncomputable instance closedDecidableEq : DecidableEq Closed := Classical.decEq Closed

noncomputable abbrev Montgomery : WeierstrassCurve.Affine Closed := MontgomeryCurve.curve 486662

noncomputable abbrev embed : ZMod P →+* Closed := algebraMap (ZMod P) Closed

/-- The coordinate of a point. That of the neutral point is written as zero. -/
inductive Coordinate : Montgomery.Point → ZMod P → Prop
  | zero : Coordinate 0 0
  | some {x y : Closed} (h : Montgomery.Nonsingular x y) {u : ZMod P} :
    embed u = x → Coordinate (.some x y h) u

theorem embed_ne_zero {n : Nat} (h : n % P ≠ 0) : (n : Closed) ≠ 0 := by
  intro h0
  have hcast : ((n : Nat) : ZMod P) ≠ 0 := by
    rw [Ne, ZMod.natCast_eq_zero_iff]
    exact fun hd => h (Nat.mod_eq_zero_of_dvd hd)
  exact hcast (embed.injective (by rw [map_natCast, h0, map_zero]))

theorem two_ne_zero_closed : (2 : Closed) ≠ 0 := embed_ne_zero (n := 2) (by decide)

theorem a24_eq : (486662 : Closed) = 4 * embed 121665 + 2 := by
  rw [map_ofNat]
  norm_num

theorem discriminant : (486662 : Closed) ^ 2 ≠ 4 := by
  intro h
  apply embed_ne_zero (n := 486662 ^ 2 - 4) (by decide)
  rw [Nat.cast_sub (by norm_num), Nat.cast_pow, Nat.cast_ofNat, h]
  norm_num

variable {A : Montgomery.Point}

theorem Coordinate.unique {u v : ZMod P} (hu : Coordinate A u) (hv : Coordinate A v) : u = v := by
  cases hu with
  | zero =>
    generalize hA : (0 : Montgomery.Point) = A at hv
    cases hv with
    | zero => rfl
    | some h => exact absurd hA.symm (WeierstrassCurve.Affine.Point.some_ne_zero h)
  | some h hu =>
    cases hv with
    | some _ hv => exact embed.injective (hu.trans hv.symm)

theorem exists_coordinate (u : ZMod P) : ∃ A, Coordinate A u := by
  obtain ⟨y, hy⟩ := IsAlgClosed.exists_pow_nat_eq
    (embed u ^ 3 + 486662 * embed u ^ 2 + embed u) (n := 2) (by decide)
  exact ⟨_, .some (nonsingular_of_equation two_ne_zero_closed discriminant
    (equation_iff.mpr hy)) rfl⟩

/-- The points on the axis `x = 0` are of order two. -/
theorem Coordinate.even_multiple (hA : Coordinate A 0) (m : Nat) : (m * 2) • A = 0 := by
  rw [mul_nsmul', two_nsmul]
  generalize hu : (0 : ZMod P) = u at hA
  cases hA with
  | zero => rw [add_zero, nsmul_zero]
  | @some x y h _ hx =>
    rw [← hu, map_zero] at hx
    subst hx
    have hy : y = 0 := by
      have heq := equation_iff.mp h.1
      exact pow_eq_zero_iff (n := 2) (by decide) |>.mp (by linear_combination heq)
    have hneg : y = Montgomery.negY 0 y := by rw [negY_eq, hy, neg_zero]
    rw [WeierstrassCurve.Affine.Point.add_self_of_Y_eq hneg, nsmul_zero]

theorem clampNat_even (n : Nat) : ∃ m, clampNat n = m * 2 := by
  refine ⟨n % 2 ^ 254 / 8 * 4 + 2 ^ 253, ?_⟩
  unfold clampNat
  omega

/-! ## The ladder gives the multiple -/

/-- The quotient of a pair is the coordinate of the point it stands for. -/
theorem coordinate_of_stands {p : Pair (ZMod P)}
    (h : Stands embed A p) : Coordinate A (affine p) := by
  cases h with
  | zero hz _ =>
    rw [affine_zero ((map_eq_zero embed).mp hz)]
    exact .zero
  | some h hz hx =>
    have hinv := ed25519.pow_sub_two ((map_ne_zero embed).mp hz)
    refine .some h (mul_right_cancel₀ hz ?_)
    rw [← hx, ← map_mul]
    rw [affine, mul_assoc, hinv, mul_one]

theorem ladder_multiple (scalar point : Bytes32) (hA : Coordinate A (uCoordinate point)) :
    Coordinate (clampNat (ofLe scalar.1) • A) (affine (ladderState scalar point 255).p) := by
  have hbits : ofBits (scalarBits (clampNat (ofLe scalar.1)) 255) = clampNat (ofLe scalar.1) :=
    (ofBits_scalarBits (clampNat_lt _) (Nat.le_refl 255)).trans (Nat.div_one _)
  unfold ladderState
  generalize uCoordinate point = u at hA
  by_cases hu : u = 0
  · -- the doubled point is neutral, and the ladder on zero ends there too
    subst hu
    obtain ⟨m, hm⟩ := clampNat_even (ofLe scalar.1)
    have hrun := (run_holds (orderTwo_xOnly 121665) (scalarBits (clampNat (ofLe scalar.1)) 255)).1
    rw [hbits, hm, mul_nsmul', two_nsmul, CharTwo.add_self_eq_zero, nsmul_zero] at hrun
    rw [hm, affine_zero (orderTwo_zero hrun), hA.even_multiple]
    exact .zero
  · cases hA with
    | zero => exact absurd rfl hu
    | some h hx =>
      have hne := hx ▸ (map_ne_zero embed).mpr hu
      have hrun := (run_holds (xOnly two_ne_zero_closed a24_eq h hx hne)
        (scalarBits (clampNat (ofLe scalar.1)) 255)).1
      rw [hbits] at hrun
      exact coordinate_of_stands hrun

theorem uCoordinate_le (r : Bytes32) {v : ZMod P} (h : r.1 = le 32 v.val) : uCoordinate r = v := by
  have hlt : v.val < 2 ^ 255 := (ZMod.val_lt v).trans (by decide)
  unfold uCoordinate
  rw [h, ofLe_le, Nat.mod_eq_of_lt (hlt.trans (by decide)), Nat.mod_eq_of_lt hlt, ZMod.natCast_val,
    ZMod.cast_id]

theorem scalarmult_multiple (scalar point : Bytes32) (hA : Coordinate A (uCoordinate point)) :
    Coordinate (clampNat (ofLe scalar.1) • A)
      (uCoordinate (x25519_scalarmult scalar point).value) := by
  rw [uCoordinate_le _ (x25519_scalarmult_spec scalar point).2]
  exact ladder_multiple scalar point hA

/-- The result is the coordinate of the multiple by the clamped scalar of any point with the
coordinate that was given, of which there is one. -/
theorem x25519_multiplies (scalar point : Bytes32) : (∃ A, Coordinate A (uCoordinate point)) ∧
      ∀ A, Coordinate A (uCoordinate point) → ∃ u, Coordinate (clampNat (ofLe scalar.1) • A) u ∧
          (x25519_scalarmult scalar point).value.1 = le 32 u.val :=
  ⟨exists_coordinate _, fun _ hA =>
    ⟨_, ladder_multiple scalar point hA, (x25519_scalarmult_spec scalar point).2⟩⟩

/-- Two scalars on one point give the same bytes in either order. So two parties that send
each other their public keys share a secret. -/
theorem x25519_agrees (a b : Bytes32) :
    (∀ point, (x25519_scalarmult a (x25519_scalarmult b point).value).value =
      (x25519_scalarmult b (x25519_scalarmult a point).value).value) ∧
    (x25519_scalarmult a (x25519_public_from_secret b).value).value =
      (x25519_scalarmult b (x25519_public_from_secret a).value).value := by
  have hswap : ∀ point, (x25519_scalarmult a (x25519_scalarmult b point).value).value =
      (x25519_scalarmult b (x25519_scalarmult a point).value).value := by
    intro point
    obtain ⟨A, hA⟩ := exists_coordinate (uCoordinate point)
    have hab := ladder_multiple a _ (scalarmult_multiple b point hA)
    have hba := ladder_multiple b _ (scalarmult_multiple a point hA)
    rw [← mul_nsmul'] at hab hba
    rw [Nat.mul_comm] at hba
    apply Subtype.ext
    rw [(x25519_scalarmult_spec a _).2, (x25519_scalarmult_spec b _).2, hab.unique hba]
  exact ⟨hswap, hswap _⟩

/-- A point whose order divides 8 gives zero under every scalar, and nothing rejects it. -/
theorem x25519_of_small_order (scalar : Bytes32) {point : Bytes32}
    (hA : Coordinate A (uCoordinate point)) (h8 : 8 • A = 0) :
    (x25519_scalarmult scalar point).value = zeros := by
  have hmul := ladder_multiple scalar point hA
  have hm : clampNat (ofLe scalar.1) = (ofLe scalar.1 % 2 ^ 254 / 8 + 2 ^ 251) * 8 := by
    unfold clampNat
    omega
  rw [hm, mul_nsmul', h8, nsmul_zero] at hmul
  apply Subtype.ext
  rw [(x25519_scalarmult_spec scalar point).2, hmul.unique .zero, ZMod.val_zero]
  rfl

theorem x25519_of_zero : (x25519_scalarmult zeros zeros).value = zeros := by
  obtain ⟨A, hA⟩ := exists_coordinate 0
  have hzero : uCoordinate zeros = 0 := uCoordinate_le zeros (by rw [ZMod.val_zero]; rfl)
  exact x25519_of_small_order _ (hzero ▸ hA) (hA.even_multiple 4)

end paideia_as_crypto.curve
