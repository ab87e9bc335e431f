-- Montgomery curves over a field, and the formulas of the ladder on them: the pairs may
-- lie in a smaller ring than the coordinates of the points.
import PaideiaAs.Lib.MontgomeryLadder
import Mathlib.AlgebraicGeometry.EllipticCurve.Affine.Point
import Mathlib.Tactic.LinearCombination

namespace MontgomeryCurve

open MontgomeryLadder WeierstrassCurve.Affine

variable {F K : Type} [CommRing F] [Field K] {a : K}

/-- `y^2 = x^3 + a * x^2 + x`. -/
def curve (a : K) : WeierstrassCurve.Affine K := ⟨0, a, 0, 1, 0⟩

variable {x y : K}

theorem equation_iff : (curve a).Equation x y ↔ y ^ 2 = x ^ 3 + a * x ^ 2 + x := by
  rw [WeierstrassCurve.Affine.equation_iff]
  unfold curve
  constructor
  · intro h
    linear_combination h
  · intro h
    linear_combination h

theorem negY_eq (x y : K) : (curve a).negY x y = -y := by
  unfold WeierstrassCurve.Affine.negY curve
  ring

/-- On the axis the cubic has no double root. -/
theorem derivative_ne_zero (h : (curve a).Nonsingular x 0) : 3 * x ^ 2 + 2 * a * x + 1 ≠ 0 := by
  have hslope := ((nonsingular_iff x 0).mp h).2
  unfold curve at hslope
  intro hd
  rcases hslope with hx | hy
  · exact hx (by linear_combination -hd)
  · exact hy (by ring)

theorem nonsingular_of_equation (h2 : (2 : K) ≠ 0) (ha : a ^ 2 ≠ 4) (h : (curve a).Equation x y) :
    (curve a).Nonsingular x y := by
  refine (nonsingular_iff x y).mpr ⟨h, ?_⟩
  rw [equation_iff] at h
  by_cases hy : y = 0
  · left
    rw [hy] at h ⊢
    unfold curve
    intro hd
    have hx : x * (x ^ 2 - 1) = 0 := by linear_combination (-x) * hd + 2 * h
    rcases mul_eq_zero.mp hx with hx | hx
    · rw [hx] at hd
      exact one_ne_zero (α := K) (by linear_combination -hd)
    · exact ha (by linear_combination (2 * x - a) * h + (4 - (a - 2 * x) * (x + a)) * hx)
  · right
    unfold curve
    intro hyy
    exact mul_ne_zero h2 hy (by linear_combination hyy)

/-- The pair of a point over a ring that maps into the field. -/
inductive Stands (φ : F →+* K) : (curve a).Point → Pair F → Prop
  | zero {p : Pair F} : φ p.z = 0 → φ p.x ≠ 0 → Stands φ 0 p
  | some {x y : K} (h : (curve a).Nonsingular x y) {p : Pair F} :
    φ p.z ≠ 0 → φ p.x = x * φ p.z → Stands φ (.some x y h) p

variable {φ : F →+* K} {p q : Pair F} {a24 u : F}

/-- The coordinate is the quotient of the pair. -/
theorem Stands.coordinates {h : (curve a).Nonsingular x y}
    (hp : Stands φ (.some x y h) p) : φ p.z ≠ 0 ∧ φ p.x = x * φ p.z := by
  cases hp with
  | some _ hz hx => exact ⟨hz, hx⟩

/-! ## The formulas -/

theorem double_coordinates (ha : a = 4 * φ a24 + 2) (h : (curve a).Equation x y)
    (hx : φ p.x = x * φ p.z) : φ (double a24 p).x = (x ^ 2 - 1) ^ 2 * φ p.z ^ 4 ∧
      φ (double a24 p).z = 4 * y ^ 2 * φ p.z ^ 4 := by
  unfold double
  simp only [map_mul, map_pow, map_sub, map_add, hx]
  constructor
  · ring
  · rw [equation_iff] at h
    rw [h, ha]
    ring

theorem diffAdd_coordinates (φ : F →+* K) (u : F) (p q : Pair F) :
    φ (diffAdd u p q).x = 4 * (φ p.x * φ q.x - φ p.z * φ q.z) ^ 2 ∧
      φ (diffAdd u p q).z = φ u * (4 * (φ q.x * φ p.z - φ p.x * φ q.z) ^ 2) := by
  unfold diffAdd
  simp only [map_mul, map_pow, map_sub, map_add]
  constructor <;> ring

/-- The coordinates of the sum and of the difference of two points. -/
theorem sum_times_difference {x' y' l m : K} (h : (curve a).Equation x y)
    (h' : (curve a).Equation x' y') (hne : x ≠ x') (hl : l * (x - x') = y - y')
    (hm : m * (x' - x) = y' + y) :
    (curve a).addX x x' l * ((curve a).addX x' x m * (x' - x) ^ 2) = (x * x' - 1) ^ 2 := by
  rw [equation_iff] at h h'
  have hd : (x' - x) ^ 2 ≠ 0 := pow_ne_zero 2 (sub_ne_zero.mpr (Ne.symm hne))
  have hX : (curve a).addX x x' l * (x' - x) ^ 2 = (y - y') ^ 2 - (a + x + x') * (x' - x) ^ 2 := by
    unfold addX curve
    linear_combination (l * (x - x') + (y - y')) * hl
  have hY : (curve a).addX x' x m * (x' - x) ^ 2 = (y' + y) ^ 2 - (a + x + x') * (x' - x) ^ 2 := by
    unfold addX curve
    linear_combination (m * (x' - x) + (y' + y)) * hm
  apply mul_right_cancel₀ hd
  calc (curve a).addX x x' l * ((curve a).addX x' x m * (x' - x) ^ 2) * (x' - x) ^ 2
      = ((curve a).addX x x' l * (x' - x) ^ 2) * ((curve a).addX x' x m * (x' - x) ^ 2) := by ring
    _ = ((y - y') ^ 2 - (a + x + x') * (x' - x) ^ 2) *
          ((y' + y) ^ 2 - (a + x + x') * (x' - x) ^ 2) := by rw [hX, hY]
    _ = (x * x' - 1) ^ 2 * (x' - x) ^ 2 := by
      linear_combination
        (y ^ 2 - 2 * y' ^ 2 + (x ^ 3 + a * x ^ 2 + x) - 2 * (a + x + x') * (x' - x) ^ 2) * h +
        (y' ^ 2 + (x' ^ 3 + a * x' ^ 2 + x') - 2 * (x ^ 3 + a * x ^ 2 + x) -
          2 * (a + x + x') * (x' - x) ^ 2) * h'

variable [DecidableEq K]

theorem stands_double (h2 : (2 : K) ≠ 0) (ha : a = 4 * φ a24 + 2) {A : (curve a).Point}
    (hp : Stands φ A p) : Stands φ (A + A) (double a24 p) := by
  cases hp with
  | zero hz hx =>
    rw [add_zero]
    apply Stands.zero
    · unfold double
      simp only [map_mul, map_pow, map_sub, map_add, hz]
      ring
    · unfold double
      simp only [map_mul, map_pow, map_sub, map_add, hz, add_zero, sub_zero]
      exact mul_ne_zero (pow_ne_zero 2 hx) (pow_ne_zero 2 hx)
  | @some x y h _ hz hx =>
    obtain ⟨hX, hZ⟩ := double_coordinates ha h.1 hx
    have hxy := equation_iff.mp h.1
    by_cases hy : y = 0
    · -- a point of order two
      subst hy
      have hneg : (0 : K) = (curve a).negY x 0 := by rw [negY_eq, neg_zero]
      rw [Point.add_self_of_Y_eq hneg]
      have hroot : x ^ 2 - 1 ≠ 0 := by
        intro h1
        apply derivative_ne_zero h
        linear_combination (-2 * x * (x + a) - 1) * h1 - 2 * x * hxy
      apply Stands.zero
      · rw [hZ]
        ring
      · rw [hX]
        exact mul_ne_zero (pow_ne_zero 2 hroot) (pow_ne_zero 4 hz)
    · have h2y : 2 * y ≠ 0 := mul_ne_zero h2 hy
      have hne : y ≠ (curve a).negY x y := by
        rw [negY_eq]
        intro hyy
        exact h2y (by linear_combination hyy)
      have hslope : (curve a).slope x x y y * (2 * y) = 3 * x ^ 2 + 2 * a * x + 1 := by
        have hden : y - -y = 2 * y := by ring
        rw [slope_of_Y_ne rfl hne, negY_eq, hden, div_mul_cancel₀ _ h2y]
        unfold curve
        ring
      rw [Point.add_self_of_Y_ne hne]
      apply Stands.some
      · rw [hZ]
        have h4 : (4 : K) * y ^ 2 = (2 * y) ^ 2 := by ring
        rw [h4]
        exact mul_ne_zero (pow_ne_zero 2 h2y) (pow_ne_zero 4 hz)
      · rw [hX, hZ]
        generalize (curve a).slope x x y y = l at hslope
        unfold addX curve
        linear_combination (-φ p.z ^ 4 * (l * (2 * y) + (3 * x ^ 2 + 2 * a * x + 1))) * hslope +
          φ p.z ^ 4 * (4 * a + 8 * x) * hxy

/-- Two points with one coordinate are opposite, and then the double is opposite to their
difference. -/
theorem stands_diffAdd (h2 : (2 : K) ≠ 0) (ha : a = 4 * φ a24 + 2) {x1 y1 : K}
    {h1 : (curve a).Nonsingular x1 y1} (hu : φ u = x1) (hx1 : x1 ≠ 0) {A : (curve a).Point}
    (hp : Stands φ A p) (hq : Stands φ (A + .some x1 y1 h1) q) :
    Stands φ (A + (A + .some x1 y1 h1)) (diffAdd u p q) := by
  have h4 : (4 : K) ≠ 0 := by
    have h22 : (4 : K) = 2 * 2 := by norm_num
    rw [h22]
    exact mul_ne_zero h2 h2
  have hP : (.some x1 y1 h1 : (curve a).Point) ≠ 0 := Point.some_ne_zero h1
  obtain ⟨hX, hZ⟩ := diffAdd_coordinates φ u p q
  cases hp with
  | zero hz hx =>
    rw [zero_add] at hq ⊢
    rw [zero_add]
    obtain ⟨hz', hx'⟩ := hq.coordinates
    apply Stands.some
    · rw [hZ, hz, mul_zero, zero_sub, neg_sq, hu]
      exact mul_ne_zero hx1 (mul_ne_zero h4 (pow_ne_zero 2 (mul_ne_zero hx hz')))
    · rw [hX, hZ, hz, hx', hu]
      ring
  | @some x y h _ hz hx =>
    generalize hR : (.some x y h : (curve a).Point) + .some x1 y1 h1 = R at hq ⊢
    have hdiff : R + -.some x y h = .some x1 y1 h1 := by
      rw [← hR]
      abel
    cases hq with
    | zero hz' hx' =>
      -- the point is the opposite of the difference
      rw [zero_add, Point.neg_some, Point.some.injEq] at hdiff
      rw [add_zero]
      apply Stands.some
      · rw [hZ, hz', mul_zero, sub_zero, hu]
        exact mul_ne_zero hx1 (mul_ne_zero h4 (pow_ne_zero 2 (mul_ne_zero hx' hz)))
      · rw [hX, hZ, hz', hx, hu, hdiff.1]
        ring
    | @some x' y' h' _ hz' hx' =>
      have hX' : φ (diffAdd u p q).x = 4 * (x * x' - 1) ^ 2 * (φ p.z * φ q.z) ^ 2 := by
        rw [hX, hx, hx']
        ring
      have hZ' : φ (diffAdd u p q).z = x1 * (4 * (x' - x) ^ 2 * (φ p.z * φ q.z) ^ 2) := by
        rw [hZ, hx, hx', hu]
        ring
      by_cases hxx : x = x'
      · subst hxx
        rcases Y_eq_of_X_eq h.1 h'.1 rfl with hyy | hyy
        · -- the same point: the difference would be zero
          subst hyy
          rw [add_neg_cancel] at hdiff
          exact absurd hdiff.symm hP
        · rw [Point.add_of_Y_eq rfl hyy]
          have hopp : -Point.some x y h = Point.some x y' h' := by
            rw [Point.neg_some, Point.some.injEq]
            refine ⟨rfl, ?_⟩
            rw [hyy, negY_eq, negY_eq, neg_neg]
          rw [hopp] at hdiff
          have hdouble := stands_double h2 ha (Stands.some (φ := φ) h' hz' hx')
          rw [hdiff] at hdouble
          obtain ⟨hz3, hx3⟩ := hdouble.coordinates
          obtain ⟨hX2, -⟩ := double_coordinates ha h'.1 hx'
          have hroot : (x ^ 2 - 1) ^ 2 * φ q.z ^ 4 ≠ 0 := by
            rw [← hX2, hx3]
            exact mul_ne_zero hx1 hz3
          apply Stands.zero
          · rw [hZ']
            ring
          · rw [hX', ← pow_two]
            exact mul_ne_zero (mul_ne_zero h4 (left_ne_zero_of_mul hroot))
              (pow_ne_zero 2 (mul_ne_zero hz hz'))
      · have hl : (curve a).slope x x' y y' * (x - x') = y - y' := by
          rw [slope_of_X_ne hxx, div_mul_cancel₀ _ (sub_ne_zero.mpr hxx)]
        have hm : (curve a).slope x' x y' (-y) * (x' - x) = y' + y := by
          rw [slope_of_X_ne (Ne.symm hxx), div_mul_cancel₀ _ (sub_ne_zero.mpr (Ne.symm hxx)),
            sub_neg_eq_add]
        rw [Point.neg_some, Point.add_of_X_ne (Ne.symm hxx), Point.some.injEq, negY_eq] at hdiff
        have hprod := sum_times_difference h.1 h'.1 hxx hl hm
        rw [hdiff.1] at hprod
        rw [Point.add_of_X_ne hxx]
        apply Stands.some
        · rw [hZ']
          exact mul_ne_zero hx1 (mul_ne_zero (mul_ne_zero h4
            (pow_ne_zero 2 (sub_ne_zero.mpr (Ne.symm hxx)))) (pow_ne_zero 2 (mul_ne_zero hz hz')))
        · rw [hX', hZ', ← hprod]
          ring

/-- The formulas are right for the multiples of a point off the axis `x = 0`. -/
theorem xOnly (h2 : (2 : K) ≠ 0) (ha : a = 4 * φ a24 + 2) {x1 y1 : K}
    (h1 : (curve a).Nonsingular x1 y1) (hu : φ u = x1) (hx1 : x1 ≠ 0) :
    XOnly (.some x1 y1 h1 : (curve a).Point) a24 u (Stands φ) where
  zero := .zero (map_zero φ) (by rw [map_one]; exact one_ne_zero)
  base := .some h1 (by rw [map_one]; exact one_ne_zero) (by rw [map_one, mul_one, hu])
  double _ _ hp := stands_double h2 ha hp
  diffAdd _ _ _ hp hq := stands_diffAdd h2 ha hu hx1 hp hq

end MontgomeryCurve
