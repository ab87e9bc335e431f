-- The curves y^2 = x^3 - 3x + b in Jacobian coordinates: the doubling and the addition
-- with their exceptional cases, against the chord and tangent law.
import Mathlib.AlgebraicGeometry.EllipticCurve.Affine.Point

namespace ShortWeierstrass

/-! ## The formulas -/

/-- `x = X / Z^2` and `y = Y / Z^3`; no point of the plane has `Z = 0`. -/
structure Triple (R : Type) where
  x : R
  y : R
  z : R

section

variable {R : Type} [CommRing R]

def identity : Triple R := ⟨1, 1, 0⟩

/-- The doubling away from the identity. -/
def Triple.tangent (p : Triple R) : Triple R :=
  let delta := p.z * p.z
  let gamma := p.y * p.y
  let beta := p.x * gamma
  let slope := (p.x - delta) * (p.x + delta)
  let alpha := slope + slope + slope
  let beta2 := beta + beta
  let beta4 := beta2 + beta2
  let x := alpha * alpha - (beta4 + beta4)
  let z := (p.y + p.z) * (p.y + p.z) - gamma - delta
  let gamma2 := gamma * gamma + gamma * gamma
  let gamma4 := gamma2 + gamma2
  ⟨x, alpha * (beta4 - x) - (gamma4 + gamma4), z⟩

/-- The addition of points with different x-coordinates. -/
def Triple.chord (p q : Triple R) : Triple R :=
  let zz := p.z * p.z
  let ww := q.z * q.z
  let u1 := p.x * ww
  let u2 := q.x * zz
  let s1 := p.y * (ww * q.z)
  let s2 := q.y * (zz * p.z)
  let h := u2 - u1
  let r := s2 - s1
  let hh := h * h
  let hhh := hh * h
  let v := u1 * hh
  let x := r * r - (v + v) - hhh
  ⟨x, r * (v - x) - s1 * hhh, p.z * q.z * h⟩

variable [DecidableEq R]

def Triple.double (p : Triple R) : Triple R := if p.z = 0 then identity else p.tangent

def Triple.add (p q : Triple R) : Triple R :=
  if p.z = 0 then q
  else if q.z = 0 then p
  else if p.x * (q.z * q.z) = q.x * (p.z * p.z) then
    if p.y * (q.z * q.z * q.z) = q.y * (p.z * p.z * p.z) then p.double else identity
  else p.chord q

end

/-! ## The points that the coordinates stand for -/

variable {F : Type} [Field F]

/-- `y^2 = x^3 - 3 * x + b`. -/
def curve (b : F) : WeierstrassCurve.Affine F := ⟨0, 0, 0, Int.cast (-3), b⟩

variable {b : F} {x y : F} {p : Triple F} {A : (curve b).Point}

theorem equation_iff : (curve b).Equation x y ↔ y ^ 2 = x ^ 3 - 3 * x + b := by
  rw [WeierstrassCurve.Affine.equation_iff]
  unfold curve
  constructor
  · intro h
    linear_combination h
  · intro h
    linear_combination h

theorem negY_eq (x y : F) : (curve b).negY x y = -y := by
  unfold WeierstrassCurve.Affine.negY curve
  ring

inductive Stands : (curve b).Point → Triple F → Prop
  | zero {p : Triple F} : p.z = 0 → Stands 0 p
  | some {x y : F} (h : (curve b).Nonsingular x y) {p : Triple F} :
    p.z ≠ 0 → p.x = x * p.z ^ 2 → p.y = y * p.z ^ 3 → Stands (.some x y h) p

theorem stands_affine (h : (curve b).Nonsingular x y) : Stands (.some x y h) ⟨x, y, 1⟩ := by
  apply Stands.some h one_ne_zero
  · rw [one_pow, mul_one]
  · rw [one_pow, mul_one]

theorem stands_identity : Stands (0 : (curve b).Point) identity := Stands.zero rfl

theorem Stands.coordinates {h : (curve b).Nonsingular x y} (hp : Stands (.some x y h) p) :
    p.z ≠ 0 ∧ p.x = x * p.z ^ 2 ∧ p.y = y * p.z ^ 3 := by
  cases hp with
  | some _ hz hx hy => exact ⟨hz, hx, hy⟩

theorem Stands.eq_zero_iff (hp : Stands A p) : A = 0 ↔ p.z = 0 := by
  cases hp with
  | zero hz => exact iff_of_true rfl hz
  | some h hz hx hy => exact iff_of_false (WeierstrassCurve.Affine.Point.some_ne_zero h) hz

/-- The doubling with the slope `l` of the tangent. -/
theorem tangent_spec {l : F} (hx : p.x = x * p.z ^ 2) (hy : p.y = y * p.z ^ 3)
    (hl : l * (2 * y) = 3 * x ^ 2 - 3) :
    p.tangent.z = 2 * p.y * p.z ∧ p.tangent.x = (l ^ 2 - x - x) * p.tangent.z ^ 2 ∧
      p.tangent.y = (l * (x - (l ^ 2 - x - x)) - y) * p.tangent.z ^ 3 := by
  unfold Triple.tangent
  dsimp only
  rw [hx, hy]
  refine ⟨?_, ?_, ?_⟩
  · ring
  · linear_combination -(p.z ^ 8 * (3 * x ^ 2 - 3 + 2 * l * y)) * hl
  · linear_combination -(p.z ^ 12 * (12 * x * y ^ 2 -
      ((3 * x ^ 2 - 3) ^ 2 + (3 * x ^ 2 - 3) * (2 * l * y) + (2 * l * y) ^ 2))) * hl

/-- The addition with the slope `l` of the chord. -/
theorem chord_spec {q : Triple F} {x1 y1 x2 y2 l : F} (hx : p.x = x1 * p.z ^ 2)
    (hy : p.y = y1 * p.z ^ 3) (hx' : q.x = x2 * q.z ^ 2) (hy' : q.y = y2 * q.z ^ 3)
    (hl : l * (x1 - x2) = y1 - y2) :
    (p.chord q).z = (x2 - x1) * (p.z * q.z) ^ 3 ∧
      (p.chord q).x = (l ^ 2 - x1 - x2) * (p.chord q).z ^ 2 ∧
      (p.chord q).y = (l * (x1 - (l ^ 2 - x1 - x2)) - y1) * (p.chord q).z ^ 3 := by
  unfold Triple.chord
  dsimp only
  rw [hx, hy, hx', hy']
  refine ⟨?_, ?_, ?_⟩
  · ring
  · linear_combination (p.z * q.z) ^ 6 * (y2 - y1 + l * (x2 - x1)) * hl
  · linear_combination (p.z * q.z) ^ 9 * (3 * x1 * (x2 - x1) ^ 2 + (x2 - x1) ^ 3 -
      ((y2 - y1) ^ 2 + (y2 - y1) * (l * (x2 - x1)) + (l * (x2 - x1)) ^ 2)) * hl

theorem sum_coordinates (x1 x2 y1 l : F) : (curve b).addX x1 x2 l = l ^ 2 - x1 - x2 ∧
      (curve b).addY x1 x2 y1 l = l * (x1 - (l ^ 2 - x1 - x2)) - y1 := by
  have hX : (curve b).addX x1 x2 l = l ^ 2 - x1 - x2 := by
    unfold WeierstrassCurve.Affine.addX curve
    ring
  refine ⟨hX, ?_⟩
  rw [WeierstrassCurve.Affine.addY, WeierstrassCurve.Affine.negAddY, negY_eq, hX]
  ring

variable [DecidableEq F]

theorem stands_double (h2 : (2 : F) ≠ 0) (hp : Stands A p) : Stands (A + A) p.double := by
  unfold Triple.double
  cases hp with
  | zero hz =>
    rw [if_pos hz, add_zero]
    exact stands_identity
  | @some x y h _ hz hx hy =>
    rw [if_neg hz]
    by_cases hy0 : y = 0
    · -- a point of order two
      have hneg : y = (curve b).negY x y := by rw [negY_eq, hy0, neg_zero]
      rw [WeierstrassCurve.Affine.Point.add_self_of_Y_eq hneg]
      apply Stands.zero
      unfold Triple.tangent
      dsimp only
      rw [hy, hy0]
      ring
    · have h2y : 2 * y ≠ 0 := mul_ne_zero h2 hy0
      have hne : y ≠ (curve b).negY x y := by
        rw [negY_eq]
        intro hyy
        exact h2y (by linear_combination hyy)
      have hslope : (curve b).slope x x y y * (2 * y) = 3 * x ^ 2 - 3 := by
        have hden : y - -y = 2 * y := by ring
        rw [WeierstrassCurve.Affine.slope_of_Y_ne rfl hne, negY_eq, hden, div_mul_cancel₀ _ h2y]
        unfold curve
        ring
      obtain ⟨hz3, hx3, hy3⟩ := tangent_spec hx hy hslope
      obtain ⟨hX, hY⟩ := sum_coordinates (b := b) x x y ((curve b).slope x x y y)
      rw [WeierstrassCurve.Affine.Point.add_self_of_Y_ne hne]
      apply Stands.some
      · rw [hz3, hy]
        exact mul_ne_zero (mul_ne_zero h2 (mul_ne_zero hy0 (pow_ne_zero 3 hz))) hz
      · rw [hX, hx3]
      · rw [hY, hy3]

omit [DecidableEq F] in
/-- Where the cross products of two points agree, their coordinates do. -/
theorem cross_eq_iff {x1 x2 z w : F} (hz : z ≠ 0) (hw : w ≠ 0) (n : Nat) :
    x1 * z ^ n * w ^ n = x2 * w ^ n * z ^ n ↔ x1 = x2 := by
  have hcomm : x2 * w ^ n * z ^ n = x2 * (z ^ n * w ^ n) := by ring
  rw [hcomm, mul_assoc]
  exact mul_left_inj' (mul_ne_zero (pow_ne_zero n hz) (pow_ne_zero n hw))

theorem stands_add (h2 : (2 : F) ≠ 0) {B : (curve b).Point} {q : Triple F} (hp : Stands A p)
    (hq : Stands B q) : Stands (A + B) (p.add q) := by
  unfold Triple.add
  cases hp with
  | zero hz =>
    rw [if_pos hz, zero_add]
    exact hq
  | @some x1 y1 h1 _ hz hx hy =>
    rw [if_neg hz]
    cases hq with
    | zero hz' =>
      rw [if_pos hz', add_zero]
      exact Stands.some h1 hz hx hy
    | @some x2 y2 h2' _ hz' hx' hy' =>
      have hU : p.x * (q.z * q.z) = q.x * (p.z * p.z) ↔ x1 = x2 := by
        rw [hx, hx', ← pow_two, ← pow_two]
        exact cross_eq_iff hz hz' 2
      have hS : p.y * (q.z * q.z * q.z) = q.y * (p.z * p.z * p.z) ↔ y1 = y2 := by
        rw [hy, hy', ← pow_two, ← pow_two, ← pow_succ, ← pow_succ]
        exact cross_eq_iff hz hz' 3
      rw [if_neg hz']
      by_cases hxx : x1 = x2
      · rw [if_pos (hU.2 hxx)]
        by_cases hyy : y1 = y2
        · -- the same point
          subst hxx hyy
          rw [if_pos (hS.2 rfl)]
          exact stands_double h2 (Stands.some h1 hz hx hy)
        · -- opposite points
          rw [if_neg fun h => hyy (hS.1 h)]
          have hneg : y1 = (curve b).negY x2 y2 :=
            (WeierstrassCurve.Affine.Y_eq_of_X_eq h1.1 h2'.1 hxx).resolve_left hyy
          rw [WeierstrassCurve.Affine.Point.add_of_Y_eq hxx hneg]
          exact stands_identity
      · rw [if_neg fun h => hxx (hU.1 h)]
        have hslope : (curve b).slope x1 x2 y1 y2 * (x1 - x2) = y1 - y2 := by
          rw [WeierstrassCurve.Affine.slope_of_X_ne hxx, div_mul_cancel₀ _ (sub_ne_zero.2 hxx)]
        obtain ⟨hz3, hx3, hy3⟩ := chord_spec hx hy hx' hy' hslope
        obtain ⟨hX, hY⟩ := sum_coordinates (b := b) x1 x2 y1 ((curve b).slope x1 x2 y1 y2)
        rw [WeierstrassCurve.Affine.Point.add_of_X_ne hxx]
        apply Stands.some
        · rw [hz3]
          exact mul_ne_zero (sub_ne_zero.2 (Ne.symm hxx)) (pow_ne_zero 3 (mul_ne_zero hz hz'))
        · rw [hX, hx3]
        · rw [hY, hy3]

end ShortWeierstrass
