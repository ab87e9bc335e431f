-- Twisted Edwards curves with a = -1 over a field in which -1 is a square and d is not:
-- the complete addition law, and the extended coordinates it is computed in.
import Mathlib.Tactic.FieldSimp
import Mathlib.Tactic.LinearCombination
import Mathlib.Tactic.Ring

namespace Edwards

section

variable {R : Type} [CommRing R]

/-- Projective coordinates with the product of the two affine ones. -/
structure Extended (R : Type) where
  x : R
  y : R
  z : R
  t : R

def Extended.double (p : Extended R) : Extended R :=
  let e := (p.x + p.y) * (p.x + p.y) - p.x * p.x - p.y * p.y
  let g := 0 - p.x * p.x + p.y * p.y
  let f := g - (p.z * p.z + p.z * p.z)
  let h := 0 - p.x * p.x - p.y * p.y
  ⟨e * f, g * h, f * g, e * h⟩

/-- The unified addition, with `2 * d`. -/
def Extended.add (d2 : R) (p q : Extended R) : Extended R :=
  let a := (p.y - p.x) * (q.y - q.x)
  let b := (p.y + p.x) * (q.y + q.x)
  let c := p.t * q.t * d2
  let w := p.z * q.z + p.z * q.z
  ⟨(b - a) * (w - c), (w + c) * (b + a), (w - c) * (w + c), (b - a) * (b + a)⟩

end

variable {F : Type} [Field F]

/-! ## The curve -/

def OnCurve (d x y : F) : Prop := y ^ 2 - x ^ 2 = 1 + d * x ^ 2 * y ^ 2

/-- What makes the addition law complete. -/
structure Complete (d : F) : Prop where
  two_ne_zero : (2 : F) ≠ 0
  neg_one_square : ∃ i : F, i ^ 2 = -1
  not_square : ∀ r : F, r ^ 2 ≠ d

variable {d : F} {x1 y1 x2 y2 x3 y3 : F}

/-- The product of the four coordinates times `d` never is a sign. -/
theorem no_sign (hd : Complete d) {e : F} (h1 : OnCurve d x1 y1)
    (h2 : OnCurve d x2 y2) (he : e ^ 2 = 1) : d * x1 * x2 * y1 * y2 ≠ e := by
  intro hprod
  obtain ⟨i, hi⟩ := hd.neg_one_square
  unfold OnCurve at h1 h2
  have hne : x1 * x2 * y1 * y2 ≠ 0 := by
    intro hz
    have : e = 0 := by linear_combination d * hz - hprod
    rw [this] at he
    simp at he
  obtain ⟨⟨⟨hx1, hx2⟩, hy1⟩, hy2⟩ : ((x1 ≠ 0 ∧ x2 ≠ 0) ∧ y1 ≠ 0) ∧ y2 ≠ 0 := by
    simpa only [mul_ne_zero_iff] using hne
  -- for either sign of `y2`, `d` would be a square
  have key : ∀ s : F, s ^ 2 = 1 → i * x2 + s * y2 = 0 := by
    intro s hs
    by_contra hsum
    apply hd.not_square ((i * x1 + s * e * y1) / (x1 * y1 * (i * x2 + s * y2)))
    rw [div_pow, div_eq_iff (pow_ne_zero 2 (mul_ne_zero (mul_ne_zero hx1 hy1) hsum))]
    linear_combination (x1 ^ 2 - d * x1 ^ 2 * y1 ^ 2 * x2 ^ 2) * hi +
      (e ^ 2 * y1 ^ 2 - d * x1 ^ 2 * y1 ^ 2 * y2 ^ 2) * hs + (y1 ^ 2 - 1) * he + h1 -
      d * x1 ^ 2 * y1 ^ 2 * h2 -
      (2 * i * s * x1 * y1 + d * x1 * x2 * y1 * y2 + e) * hprod
  have hplus := key 1 (by ring)
  have hminus := key (-1) (by ring)
  have hy : 2 * y2 = 0 := by linear_combination hplus - hminus
  rcases mul_eq_zero.1 hy with h | h
  · exact hd.two_ne_zero h
  · exact hy2 h

theorem denominators (hd : Complete d) (h1 : OnCurve d x1 y1) (h2 : OnCurve d x2 y2) :
    1 + d * x1 * x2 * y1 * y2 ≠ 0 ∧ 1 - d * x1 * x2 * y1 * y2 ≠ 0 := by
  constructor
  · intro hz
    exact no_sign hd h1 h2 (e := -1) (by ring) (by linear_combination hz)
  · intro hz
    exact no_sign hd h1 h2 (e := 1) (by ring) (by linear_combination -hz)

/-! ## The addition law -/

/-- A point of the curve. -/
structure Point (d : F) where
  x : F
  y : F
  on_curve : OnCurve d x y

variable {p : Point d}

theorem Point.ext {q : Point d} (hx : p.x = q.x) (hy : p.y = q.y) : p = q := by
  cases p
  cases q
  subst hx hy
  rfl

theorem zero_on_curve : OnCurve d 0 1 := by
  unfold OnCurve
  ring

theorem neg_on_curve {x y : F} (h : OnCurve d x y) : OnCurve d (-x) y := by
  unfold OnCurve at *
  linear_combination h

def sumX (d x1 y1 x2 y2 : F) : F := (x1 * y2 + x2 * y1) / (1 + d * x1 * x2 * y1 * y2)

def sumY (d x1 y1 x2 y2 : F) : F := (y1 * y2 + x1 * x2) / (1 - d * x1 * x2 * y1 * y2)

theorem sum_on_curve (hd : Complete d) (h1 : OnCurve d x1 y1)
    (h2 : OnCurve d x2 y2) : OnCurve d (sumX d x1 y1 x2 y2) (sumY d x1 y1 x2 y2) := by
  obtain ⟨hp, hm⟩ := denominators hd h1 h2
  unfold OnCurve sumX sumY at *
  have key : (y1 * y2 + x1 * x2) ^ 2 * (1 + d * x1 * x2 * y1 * y2) ^ 2 -
      (x1 * y2 + x2 * y1) ^ 2 * (1 - d * x1 * x2 * y1 * y2) ^ 2 =
      (1 + d * x1 * x2 * y1 * y2) ^ 2 * (1 - d * x1 * x2 * y1 * y2) ^ 2 +
        d * (x1 * y2 + x2 * y1) ^ 2 * (y1 * y2 + x1 * x2) ^ 2 := by
    linear_combination (d ^ 3 * x1 ^ 2 * y1 ^ 2 * x2 ^ 4 * y2 ^ 4 - d ^ 2 * x1 ^ 2 * x2 ^ 4 * y2 ^
      4 + d ^ 2 * y1 ^ 2 * x2 ^ 4 * y2 ^ 4 - d ^ 2 * x2 ^ 4 * y2 ^ 4 - d * x1 ^ 2 * x2 ^ 4 * y2 ^ 2
      + d * x1 ^ 2 * x2 ^ 2 * y2 ^ 4 + d * y1 ^ 2 * x2 ^ 4 * y2 ^ 2 - d * y1 ^ 2 * x2 ^ 2 * y2 ^ 4
      - 2 * d * x2 ^ 4 * y2 ^ 4 - 2 * d * x2 ^ 2 * y2 ^ 2 - 2 * x2 ^ 4 * y2 ^ 2 + x2 ^ 4 + 2 * x2 ^
      2 * y2 ^ 4 - 4 * x2 ^ 2 * y2 ^ 2 + y2 ^ 4) * h1 + (d * x1 ^ 4 * x2 ^ 2 * y2 ^ 2 + 2 * d * x1
      ^ 2 * x2 ^ 2 * y2 ^ 2 + d * y1 ^ 4 * x2 ^ 2 * y2 ^ 2 - 2 * d * y1 ^ 2 * x2 ^ 2 * y2 ^ 2 + d *
      x2 ^ 2 * y2 ^ 2 + 2 * x1 ^ 2 * x2 ^ 2 * y2 ^ 2 - x1 ^ 2 * x2 ^ 2 + x1 ^ 2 * y2 ^ 2 - 2 * y1 ^
      2 * x2 ^ 2 * y2 ^ 2 + y1 ^ 2 * x2 ^ 2 - y1 ^ 2 * y2 ^ 2 + 2 * x2 ^ 2 * y2 ^ 2 - x2 ^ 2 + y2 ^
      2 + 1) * h2
  generalize 1 + d * x1 * x2 * y1 * y2 = p at *
  generalize 1 - d * x1 * x2 * y1 * y2 = m at *
  field_simp
  linear_combination key

/-! ## The group -/

theorem sumX_div {a b p m : F} (hp : p ≠ 0) (hm : m ≠ 0) : sumX d (a / p) (b / m) x3 y3 =
      (a * m * y3 + x3 * b * p) / (p * m + d * a * b * x3 * y3) := by
  unfold sumX
  have hden : 1 + d * (a / p) * x3 * (b / m) * y3 = (p * m + d * a * b * x3 * y3) / (p * m) := by
    field_simp
  have hnum : a / p * y3 + x3 * (b / m) = (a * m * y3 + x3 * b * p) / (p * m) := by
    field_simp
  rw [hden, hnum, div_div_div_cancel_right₀ (mul_ne_zero hp hm)]

theorem sumY_div {a b p m : F} (hp : p ≠ 0) (hm : m ≠ 0) : sumY d (a / p) (b / m) x3 y3 =
      (b * p * y3 + a * m * x3) / (p * m - d * a * b * x3 * y3) := by
  unfold sumY
  have hden : 1 - d * (a / p) * x3 * (b / m) * y3 = (p * m - d * a * b * x3 * y3) / (p * m) := by
    field_simp
  have hnum : b / m * y3 + a / p * x3 = (b * p * y3 + a * m * x3) / (p * m) := by
    field_simp
  rw [hden, hnum, div_div_div_cancel_right₀ (mul_ne_zero hp hm)]

theorem sumX_comm (x1 y1 x2 y2 : F) : sumX d x1 y1 x2 y2 = sumX d x2 y2 x1 y1 := by
  unfold sumX
  congr 1 <;> ring

theorem sumY_comm (x1 y1 x2 y2 : F) : sumY d x1 y1 x2 y2 = sumY d x2 y2 x1 y1 := by
  unfold sumY
  congr 1 <;> ring

/-- The denominators that come up in the sum of three points. -/
theorem denominators_div (hd : Complete d) (h1 : OnCurve d x1 y1)
    (h2 : OnCurve d x2 y2) (h3 : OnCurve d x3 y3) :
    (1 + d * x1 * x2 * y1 * y2) * (1 - d * x1 * x2 * y1 * y2) +
        d * (x1 * y2 + x2 * y1) * (y1 * y2 + x1 * x2) * x3 * y3 ≠ 0 ∧
      (1 + d * x1 * x2 * y1 * y2) * (1 - d * x1 * x2 * y1 * y2) -
        d * (x1 * y2 + x2 * y1) * (y1 * y2 + x1 * x2) * x3 * y3 ≠ 0 := by
  obtain ⟨hp, hm⟩ := denominators hd h1 h2
  obtain ⟨hp', hm'⟩ := denominators hd (sum_on_curve hd h1 h2) h3
  unfold sumX sumY at hp' hm'
  generalize 1 + d * x1 * x2 * y1 * y2 = p at *
  generalize 1 - d * x1 * x2 * y1 * y2 = m at *
  constructor
  · intro hz
    apply hp'
    field_simp
    linear_combination hz
  · intro hz
    apply hm'
    field_simp
    linear_combination hz

theorem sumX_assoc (hd : Complete d) (h1 : OnCurve d x1 y1)
    (h2 : OnCurve d x2 y2) (h3 : OnCurve d x3 y3) :
    sumX d (sumX d x1 y1 x2 y2) (sumY d x1 y1 x2 y2) x3 y3 =
      sumX d x1 y1 (sumX d x2 y2 x3 y3) (sumY d x2 y2 x3 y3) := by
  obtain ⟨hp, hm⟩ := denominators hd h1 h2
  obtain ⟨hp', hm'⟩ := denominators hd h2 h3
  rw [sumX_comm x1 y1 (sumX d x2 y2 x3 y3)]
  change sumX d (_ / _) (_ / _) x3 y3 = sumX d (_ / _) (_ / _) x1 y1
  rw [sumX_div hp hm, sumX_div hp' hm', div_eq_div_iff (denominators_div hd h1 h2 h3).1
    (denominators_div hd h2 h3 h1).1]
  unfold OnCurve at h1 h2 h3
  linear_combination (-d ^ 2 * x1 * x2 ^ 4 * y2 ^ 3 * x3 ^ 2 * y3 - d ^ 2 * x1 * x2 ^ 3 * y2 ^ 4 *
    x3 * y3 ^ 2 + d ^ 2 * y1 * x2 ^ 4 * y2 ^ 3 * x3 * y3 ^ 2 + d ^ 2 * y1 * x2 ^ 3 * y2 ^ 4 * x3 ^
    2 * y3 - d * x1 * x2 ^ 4 * y2 * x3 ^ 2 * y3 - d * x1 * x2 ^ 3 * y2 ^ 2 * x3 ^ 3 - d * x1 * x2 ^
    3 * y2 ^ 2 * x3 + d * x1 * x2 ^ 2 * y2 ^ 3 * y3 ^ 3 - d * x1 * x2 ^ 2 * y2 ^ 3 * y3 + d * x1 *
    x2 * y2 ^ 4 * x3 * y3 ^ 2 + d * y1 * x2 ^ 4 * y2 * x3 * y3 ^ 2 + d * y1 * x2 ^ 3 * y2 ^ 2 * y3
    ^ 3 - d * y1 * x2 ^ 3 * y2 ^ 2 * y3 - d * y1 * x2 ^ 2 * y2 ^ 3 * x3 ^ 3 - d * y1 * x2 ^ 2 * y2
    ^ 3 * x3 - d * y1 * x2 * y2 ^ 4 * x3 ^ 2 * y3) * h1 + (d ^ 2 * x1 ^ 2 * y1 * x2 ^ 4 * y2 ^ 3 *
    x3 - d ^ 2 * x1 ^ 2 * y1 * x2 ^ 3 * y2 ^ 4 * y3 - d ^ 2 * x1 * y1 ^ 2 * x2 ^ 4 * y2 ^ 3 * y3 +
    d ^ 2 * x1 * y1 ^ 2 * x2 ^ 3 * y2 ^ 4 * x3 + d * x1 ^ 3 * x2 ^ 3 * y2 ^ 2 * x3 + d * x1 ^ 3 *
    x2 ^ 2 * y2 ^ 3 * y3 + d * x1 ^ 2 * y1 * x2 ^ 4 * y2 * x3 + d * x1 ^ 2 * y1 * x2 * y2 ^ 4 * y3
    - d * x1 * y1 ^ 2 * x2 ^ 4 * y2 * y3 - d * x1 * y1 ^ 2 * x2 * y2 ^ 4 * x3 + d * x1 * x2 ^ 3 *
    y2 ^ 2 * x3 + d * x1 * x2 ^ 2 * y2 ^ 3 * y3 - d * y1 ^ 3 * x2 ^ 3 * y2 ^ 2 * y3 - d * y1 ^ 3 *
    x2 ^ 2 * y2 ^ 3 * x3 + d * y1 * x2 ^ 3 * y2 ^ 2 * y3 + d * y1 * x2 ^ 2 * y2 ^ 3 * x3) * h3 + (d
    * x1 ^ 3 * x2 ^ 2 * y2 * x3 ^ 2 * y3 + d * x1 ^ 3 * x2 * y2 ^ 2 * x3 * y3 ^ 2 - d * x1 ^ 2 * y1
    * x2 ^ 2 * y2 * x3 ^ 3 - d * x1 ^ 2 * y1 * x2 ^ 2 * y2 * x3 - d * x1 ^ 2 * y1 * x2 * y2 ^ 2 *
    y3 ^ 3 + d * x1 ^ 2 * y1 * x2 * y2 ^ 2 * y3 - d * x1 * y1 ^ 2 * x2 ^ 2 * y2 * y3 ^ 3 + d * x1 *
    y1 ^ 2 * x2 ^ 2 * y2 * y3 - d * x1 * y1 ^ 2 * x2 * y2 ^ 2 * x3 ^ 3 - d * x1 * y1 ^ 2 * x2 * y2
    ^ 2 * x3 + d * x1 * x2 ^ 2 * y2 * x3 ^ 2 * y3 + d * x1 * x2 * y2 ^ 2 * x3 * y3 ^ 2 + d * y1 ^ 3
    * x2 ^ 2 * y2 * x3 * y3 ^ 2 + d * y1 ^ 3 * x2 * y2 ^ 2 * x3 ^ 2 * y3 - d * y1 * x2 ^ 2 * y2 *
    x3 * y3 ^ 2 - d * y1 * x2 * y2 ^ 2 * x3 ^ 2 * y3) * h2

theorem sumY_assoc (hd : Complete d) (h1 : OnCurve d x1 y1)
    (h2 : OnCurve d x2 y2) (h3 : OnCurve d x3 y3) :
    sumY d (sumX d x1 y1 x2 y2) (sumY d x1 y1 x2 y2) x3 y3 =
      sumY d x1 y1 (sumX d x2 y2 x3 y3) (sumY d x2 y2 x3 y3) := by
  obtain ⟨hp, hm⟩ := denominators hd h1 h2
  obtain ⟨hp', hm'⟩ := denominators hd h2 h3
  rw [sumY_comm x1 y1 (sumX d x2 y2 x3 y3)]
  change sumY d (_ / _) (_ / _) x3 y3 = sumY d (_ / _) (_ / _) x1 y1
  rw [sumY_div hp hm, sumY_div hp' hm', div_eq_div_iff (denominators_div hd h1 h2 h3).2
    (denominators_div hd h2 h3 h1).2]
  unfold OnCurve at h1 h2 h3
  linear_combination (d ^ 2 * x1 * x2 ^ 4 * y2 ^ 3 * x3 * y3 ^ 2 + d ^ 2 * x1 * x2 ^ 3 * y2 ^ 4 *
    x3 ^ 2 * y3 - d ^ 2 * y1 * x2 ^ 4 * y2 ^ 3 * x3 ^ 2 * y3 - d ^ 2 * y1 * x2 ^ 3 * y2 ^ 4 * x3 *
    y3 ^ 2 + d * x1 * x2 ^ 4 * y2 * x3 * y3 ^ 2 + d * x1 * x2 ^ 3 * y2 ^ 2 * y3 ^ 3 - d * x1 * x2 ^
    3 * y2 ^ 2 * y3 - d * x1 * x2 ^ 2 * y2 ^ 3 * x3 ^ 3 - d * x1 * x2 ^ 2 * y2 ^ 3 * x3 - d * x1 *
    x2 * y2 ^ 4 * x3 ^ 2 * y3 - d * y1 * x2 ^ 4 * y2 * x3 ^ 2 * y3 - d * y1 * x2 ^ 3 * y2 ^ 2 * x3
    ^ 3 - d * y1 * x2 ^ 3 * y2 ^ 2 * x3 + d * y1 * x2 ^ 2 * y2 ^ 3 * y3 ^ 3 - d * y1 * x2 ^ 2 * y2
    ^ 3 * y3 + d * y1 * x2 * y2 ^ 4 * x3 * y3 ^ 2) * h1 + (d ^ 2 * x1 ^ 2 * y1 * x2 ^ 4 * y2 ^ 3 *
    y3 - d ^ 2 * x1 ^ 2 * y1 * x2 ^ 3 * y2 ^ 4 * x3 - d ^ 2 * x1 * y1 ^ 2 * x2 ^ 4 * y2 ^ 3 * x3 +
    d ^ 2 * x1 * y1 ^ 2 * x2 ^ 3 * y2 ^ 4 * y3 + d * x1 ^ 3 * x2 ^ 3 * y2 ^ 2 * y3 + d * x1 ^ 3 *
    x2 ^ 2 * y2 ^ 3 * x3 + d * x1 ^ 2 * y1 * x2 ^ 4 * y2 * y3 + d * x1 ^ 2 * y1 * x2 * y2 ^ 4 * x3
    - d * x1 * y1 ^ 2 * x2 ^ 4 * y2 * x3 - d * x1 * y1 ^ 2 * x2 * y2 ^ 4 * y3 + d * x1 * x2 ^ 3 *
    y2 ^ 2 * y3 + d * x1 * x2 ^ 2 * y2 ^ 3 * x3 - d * y1 ^ 3 * x2 ^ 3 * y2 ^ 2 * x3 - d * y1 ^ 3 *
    x2 ^ 2 * y2 ^ 3 * y3 + d * y1 * x2 ^ 3 * y2 ^ 2 * x3 + d * y1 * x2 ^ 2 * y2 ^ 3 * y3) * h3 +
    (-d * x1 ^ 3 * x2 ^ 2 * y2 * x3 * y3 ^ 2 - d * x1 ^ 3 * x2 * y2 ^ 2 * x3 ^ 2 * y3 + d * x1 ^ 2
    * y1 * x2 ^ 2 * y2 * y3 ^ 3 - d * x1 ^ 2 * y1 * x2 ^ 2 * y2 * y3 + d * x1 ^ 2 * y1 * x2 * y2 ^
    2 * x3 ^ 3 + d * x1 ^ 2 * y1 * x2 * y2 ^ 2 * x3 + d * x1 * y1 ^ 2 * x2 ^ 2 * y2 * x3 ^ 3 + d *
    x1 * y1 ^ 2 * x2 ^ 2 * y2 * x3 + d * x1 * y1 ^ 2 * x2 * y2 ^ 2 * y3 ^ 3 - d * x1 * y1 ^ 2 * x2
    * y2 ^ 2 * y3 - d * x1 * x2 ^ 2 * y2 * x3 * y3 ^ 2 - d * x1 * x2 * y2 ^ 2 * x3 ^ 2 * y3 - d *
    y1 ^ 3 * x2 ^ 2 * y2 * x3 ^ 2 * y3 - d * y1 ^ 3 * x2 * y2 ^ 2 * x3 * y3 ^ 2 + d * y1 * x2 ^ 2 *
    y2 * x3 ^ 2 * y3 + d * y1 * x2 * y2 ^ 2 * x3 * y3 ^ 2) * h2

variable [hd : Fact (Complete d)]

instance : Add (Point d) where
  add p q := ⟨sumX d p.x p.y q.x q.y, sumY d p.x p.y q.x q.y,
    sum_on_curve hd.out p.on_curve q.on_curve⟩

instance : Zero (Point d) where
  zero := ⟨0, 1, zero_on_curve⟩

instance : Neg (Point d) where
  neg p := ⟨-p.x, p.y, neg_on_curve p.on_curve⟩

omit hd in
theorem zero_x : (0 : Point d).x = 0 := rfl

omit hd in
theorem zero_y : (0 : Point d).y = 1 := rfl

theorem zero_add_point (p : Point d) : 0 + p = p := by
  apply Point.ext
  · change sumX d 0 1 p.x p.y = p.x
    unfold sumX
    ring
  · change sumY d 0 1 p.x p.y = p.y
    unfold sumY
    ring

theorem add_point_comm (p q : Point d) : p + q = q + p :=
  Point.ext (sumX_comm p.x p.y q.x q.y) (sumY_comm p.x p.y q.x q.y)

theorem neg_add_point (p : Point d) : -p + p = 0 := by
  have hden := (denominators hd.out (neg_on_curve p.on_curve) p.on_curve).2
  apply Point.ext
  · change sumX d (-p.x) p.y p.x p.y = 0
    unfold sumX
    ring
  · change sumY d (-p.x) p.y p.x p.y = 1
    have h := p.on_curve
    unfold OnCurve at h
    unfold sumY
    rw [div_eq_one_iff_eq hden]
    linear_combination h

/-- The points of the curve under the complete addition law. -/
instance : AddCommGroup (Point d) where
  add_assoc p q r := Point.ext (sumX_assoc hd.out p.on_curve q.on_curve r.on_curve)
    (sumY_assoc hd.out p.on_curve q.on_curve r.on_curve)
  zero_add := zero_add_point
  add_zero p := by
    rw [add_point_comm]
    exact zero_add_point p
  neg_add_cancel := neg_add_point
  add_comm := add_point_comm
  nsmul := nsmulRec
  zsmul := zsmulRec

theorem add_x (p q : Point d) :
    (p + q).x * (1 + d * p.x * q.x * p.y * q.y) = p.x * q.y + q.x * p.y :=
  div_mul_cancel₀ _ (denominators hd.out p.on_curve q.on_curve).1

theorem add_y (p q : Point d) :
    (p + q).y * (1 - d * p.x * q.x * p.y * q.y) = p.y * q.y + p.x * q.x :=
  div_mul_cancel₀ _ (denominators hd.out p.on_curve q.on_curve).2

/-! ## What the coordinates stand for -/

/-- The coordinates stand for the point. -/
structure Represents (p : Point d) (e : Extended F) : Prop where
  z_ne_zero : e.z ≠ 0
  x : e.x = p.x * e.z
  y : e.y = p.y * e.z
  t : e.t = p.x * p.y * e.z

omit hd in
theorem represents_affine (p : Point d) : Represents p ⟨p.x, p.y, 1, p.x * p.y⟩ := by
  refine ⟨one_ne_zero, ?_, ?_, ?_⟩ <;> simp

omit hd in
theorem represents_zero : Represents (0 : Point d) ⟨0, 1, 1, 0⟩ := by
  refine ⟨one_ne_zero, ?_, ?_, ?_⟩ <;> simp [zero_x, zero_y]

theorem represents_double {e : Extended F} (h : Represents p e) : Represents (p + p) e.double := by
  obtain ⟨hz, hx, hy, ht⟩ := h
  obtain ⟨hplus, hminus⟩ := denominators hd.out p.on_curve p.on_curve
  have hsx := add_x p p
  have hsy := add_y p p
  have hc := p.on_curve
  unfold OnCurve at hc
  generalize p + p = s at *
  have hg : 0 - e.x * e.x + e.y * e.y = e.z ^ 2 * (1 + d * p.x * p.x * p.y * p.y) := by
    rw [hx, hy]
    linear_combination e.z ^ 2 * hc
  have hf : 0 - e.x * e.x + e.y * e.y - (e.z * e.z + e.z * e.z) =
      -(e.z ^ 2 * (1 - d * p.x * p.x * p.y * p.y)) := by
    rw [hg]
    ring
  have he : (e.x + e.y) * (e.x + e.y) - e.x * e.x - e.y * e.y =
      s.x * (e.z ^ 2 * (1 + d * p.x * p.x * p.y * p.y)) := by
    rw [hx, hy]
    linear_combination -e.z ^ 2 * hsx
  have hh : 0 - e.x * e.x - e.y * e.y = s.y * -(e.z ^ 2 * (1 - d * p.x * p.x * p.y * p.y)) := by
    rw [hx, hy]
    linear_combination e.z ^ 2 * hsy
  unfold Extended.double
  dsimp only
  rw [hf, hg, he, hh]
  refine ⟨?_, ?_, ?_, ?_⟩
  · exact mul_ne_zero (neg_ne_zero.2 (mul_ne_zero (pow_ne_zero 2 hz) hminus))
      (mul_ne_zero (pow_ne_zero 2 hz) hplus)
  · ring
  · ring
  · ring

theorem represents_add {q : Point d} {e f : Extended F} (hp : Represents p e)
    (hq : Represents q f) : Represents (p + q) (e.add (d + d) f) := by
  obtain ⟨hz, hx, hy, ht⟩ := hp
  obtain ⟨hz', hx', hy', ht'⟩ := hq
  obtain ⟨hplus, hminus⟩ := denominators hd.out p.on_curve q.on_curve
  have h2 := hd.out.two_ne_zero
  have hsx := add_x p q
  have hsy := add_y p q
  generalize p + q = s at *
  have hf : e.z * f.z + e.z * f.z - e.t * f.t * (d + d) =
      2 * e.z * f.z * (1 - d * p.x * q.x * p.y * q.y) := by
    rw [ht, ht']
    ring
  have hg : e.z * f.z + e.z * f.z + e.t * f.t * (d + d) =
      2 * e.z * f.z * (1 + d * p.x * q.x * p.y * q.y) := by
    rw [ht, ht']
    ring
  have he : (e.y + e.x) * (f.y + f.x) - (e.y - e.x) * (f.y - f.x) =
      s.x * (2 * e.z * f.z * (1 + d * p.x * q.x * p.y * q.y)) := by
    rw [hx, hy, hx', hy']
    linear_combination -(2 * e.z * f.z) * hsx
  have hh : (e.y + e.x) * (f.y + f.x) + (e.y - e.x) * (f.y - f.x) =
      s.y * (2 * e.z * f.z * (1 - d * p.x * q.x * p.y * q.y)) := by
    rw [hx, hy, hx', hy']
    linear_combination -(2 * e.z * f.z) * hsy
  have hzz : 2 * e.z * f.z ≠ 0 := mul_ne_zero (mul_ne_zero h2 hz) hz'
  unfold Extended.add
  dsimp only
  rw [hf, hg, he, hh]
  refine ⟨mul_ne_zero (mul_ne_zero hzz hminus) (mul_ne_zero hzz hplus), ?_, ?_, ?_⟩
  · ring
  · ring
  · ring

end Edwards
