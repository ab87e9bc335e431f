-- The points of P-256 in Jacobian coordinates as a refinement of the group of the curve:
-- which coordinates stand for a point, and that every operation keeps them.
import PaideiaAs.Crypto.EcdsaP256

namespace paideia_as_crypto.ecdsa_p256

open Limbs ShortWeierstrass

/-! ## Coordinates on the curve -/

/-- The triple is an identity, or `Y^2 = X^3 - 3 * X * Z^4 + b * Z^6`. -/
def OnJacobian (t : Triple (ZMod fieldPrime)) : Prop :=
  t.z = 0 ∨ t.y ^ 2 = t.x ^ 3 - 3 * t.x * t.z ^ 4 + bCoefficient * t.z ^ 6

/-- The coordinates are below `p`, and are an identity or lie on the curve. -/
structure Valid (p : Point) : Prop where
  x_lt : val p.x.1 < fieldPrime
  y_lt : val p.y.1 < fieldPrime
  z_lt : val p.z.1 < fieldPrime
  on_curve : OnJacobian ⟨val p.x.1, val p.y.1, val p.z.1⟩

variable {t : Triple (ZMod fieldPrime)} {A : Curve.Point}

theorem stands_of_onJacobian (h : OnJacobian t) : ∃ A : Curve.Point, Stands A t := by
  by_cases hz : t.z = 0
  · exact ⟨0, Stands.zero hz⟩
  · have heq := h.resolve_left hz
    have hxy : Curve.Equation (t.x / t.z ^ 2) (t.y / t.z ^ 3) := by
      rw [equation_iff]
      field_simp
      linear_combination heq
    refine ⟨.some _ _ (nonsingular_of_equation hxy), Stands.some _ hz ?_ ?_⟩
    · rw [div_mul_cancel₀ _ (pow_ne_zero 2 hz)]
    · rw [div_mul_cancel₀ _ (pow_ne_zero 3 hz)]

theorem onJacobian_of_stands (h : Stands A t) : OnJacobian t := by
  cases h with
  | zero hz => exact .inl hz
  | @some x y h _ hz hx hy =>
    right
    rw [hx, hy]
    linear_combination t.z ^ 6 * equation_iff.1 h.1

theorem stands_unique {B : Curve.Point} (hA : Stands A t) (hB : Stands B t) : A = B := by
  cases hA with
  | zero hz => exact (hB.eq_zero_iff.2 hz).symm
  | @some x y h _ hz hx hy =>
    cases hB with
    | zero hz' => exact absurd hz' hz
    | @some x' y' h' _ _ hx' hy' =>
      obtain rfl := mul_right_cancel₀ (pow_ne_zero 2 hz) (hx.symm.trans hx')
      obtain rfl := mul_right_cancel₀ (pow_ne_zero 3 hz) (hy.symm.trans hy')
      rfl

/-! ## The refinement -/

/-- The triple that the coordinates hold. -/
def Point.triple (p : Point) : Triple (ZMod fieldPrime) := ⟨val p.x.1, val p.y.1, val p.z.1⟩

theorem Stored.triple_eq {p : Point} (h : Stored P t p) : p.triple = t := by
  obtain ⟨x, y, z⟩ := t
  unfold Point.triple
  rw [Triple.mk.injEq]
  exact ⟨h.x.2, h.y.2, h.z.2⟩

theorem Represents.unique {B : Curve.Point} {p : Point} (hA : Represents A p)
    (hB : Represents B p) : A = B := by
  obtain ⟨t, ht, hA⟩ := hA
  obtain ⟨u, hu, hB⟩ := hB
  rw [← ht.triple_eq] at hA
  rw [← hu.triple_eq] at hB
  exact stands_unique hA hB

theorem valid_iff (p : Point) : Valid p ↔ ∃ A, Represents A p := by
  constructor
  · intro h
    obtain ⟨A, hA⟩ := stands_of_onJacobian h.on_curve
    exact ⟨A, _, ⟨⟨h.x_lt, rfl⟩, ⟨h.y_lt, rfl⟩, ⟨h.z_lt, rfl⟩⟩, hA⟩
  · rintro ⟨A, t, ht, hA⟩
    refine ⟨ht.x.1, ht.y.1, ht.z.1, ?_⟩
    have hcurve := onJacobian_of_stands hA
    rwa [← ht.triple_eq] at hcurve

/-- Valid coordinates stand for exactly one point of the curve; the code's operations keep
them valid, and compute the sum, the double and the multiples of the points. -/
theorem jacobian_refines_affine {p q : Point} (hp : Valid p) (hq : Valid q) :
    ∃ A B, (∀ A', Represents A' p ↔ A' = A) ∧ (∀ B', Represents B' q ↔ B' = B) ∧
      Valid p.double ∧ Represents (A + A) p.double ∧
      Valid (p.add q) ∧ Represents (A + B) (p.add q) ∧
      ∀ k, Valid (p.scalar_mul k) ∧ Represents (val k.1 • A) (p.scalar_mul k) := by
  have hone : ∀ {r C}, Represents C r → ∀ C', Represents C' r ↔ C' = C := by
    intro r C hC C'
    constructor
    · intro hC'
      exact hC'.unique hC
    · rintro rfl
      exact hC
  have hvalid : ∀ {r C}, Represents C r → Valid r := fun h => (valid_iff _).2 ⟨_, h⟩
  obtain ⟨A, hA⟩ := (valid_iff p).1 hp
  obtain ⟨B, hB⟩ := (valid_iff q).1 hq
  have hdouble := represents_double hA
  have hsum := represents_add hA hB
  refine ⟨A, B, hone hA, hone hB, hvalid hdouble, hdouble, hvalid hsum, hsum, ?_⟩
  intro k
  have hmul := represents_scalar_mul hA k
  exact ⟨hvalid hmul, hmul⟩

theorem jacobian_refines_affine_base : ∃ A B, (∀ A', Represents A' Point.base ↔ A' = A) ∧
    (∀ B', Represents B' Point.identity ↔ B' = B) ∧
      Valid Point.base.double ∧ Represents (A + A) Point.base.double ∧
      Valid (Point.base.add Point.identity) ∧
      Represents (A + B) (Point.base.add Point.identity) ∧
      ∀ k, Valid (Point.base.scalar_mul k) ∧ Represents (val k.1 • A) (Point.base.scalar_mul k) :=
  jacobian_refines_affine ((valid_iff _).2 ⟨G, represents_base⟩)
    ((valid_iff _).2 ⟨0, represents_identity⟩)

end paideia_as_crypto.ecdsa_p256
