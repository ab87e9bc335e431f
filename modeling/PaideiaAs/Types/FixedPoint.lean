-- Fixed-point numbers (`fixed_point.rs`): a sum, a difference or a product is the exact
-- one or a trap, and a quotient traps too early in one shape.
import Mathlib.Tactic.FieldSimp
import Mathlib.Tactic.Linarith
import Mathlib.Tactic.Ring
import PaideiaAs.Lib.Outcome

namespace paideia_as_types.fixed_point

open Checked
open Outcome (ok_bind)

/-! ## Shapes and values -/

inductive FixedPointError where
  | InvalidWidth (total_bits : Nat)
  | Overflow
  | ShapeMismatch
  | ShiftOutOfRange
  | DivideByZero
  | RawOutOfRange
  deriving DecidableEq

def SUPPORTED_WIDTHS : List Nat := [8, 16, 32, 64]

/-- `@fixed_point(bits_int, bits_frac)`. -/
structure FixedPoint where
  bits_int : UInt8
  bits_frac : UInt8
  signed : Bool
  supported : bits_int.toNat + bits_frac.toNat ∈ SUPPORTED_WIDTHS
  deriving DecidableEq

namespace FixedPoint

def new (bits_int bits_frac : UInt8) (signed : Bool) : Except FixedPointError FixedPoint :=
  if h : bits_int.toNat + bits_frac.toNat ∈ SUPPORTED_WIDTHS then
    .ok ⟨bits_int, bits_frac, signed, h⟩
  else .error (.InvalidWidth (bits_int.toNat + bits_frac.toNat))

def total_bits (fp : FixedPoint) : UInt8 := fp.bits_int + fp.bits_frac

def raw_min (fp : FixedPoint) : Outcome Int :=
  if fp.signed then do
    let top ← shl_i128 (fp.total_bits - 1).toNat
    i128 (-top)
  else .ok 0

def raw_max (fp : FixedPoint) : Outcome Int :=
  if fp.signed then do
    let top ← shl_i128 (fp.total_bits - 1).toNat
    i128 (top - 1)
  else do
    let top ← shl_i128 fp.total_bits.toNat
    i128 (top - 1)

/-! ### The declared range -/

def width (fp : FixedPoint) : Nat := fp.bits_int.toNat + fp.bits_frac.toNat

def lo (fp : FixedPoint) : Int := if fp.signed then -2 ^ (fp.width - 1) else 0

def hi (fp : FixedPoint) : Int := if fp.signed then 2 ^ (fp.width - 1) - 1 else 2 ^ fp.width - 1

section

variable (fp : FixedPoint)

include fp

theorem width_cases : fp.width = 8 ∨ fp.width = 16 ∨ fp.width = 32 ∨ fp.width = 64 := by
  have h := fp.supported
  unfold SUPPORTED_WIDTHS at h
  unfold width
  simpa using h

theorem total_bits_toNat : fp.total_bits.toNat = fp.width := by
  have h := fp.width_cases
  unfold total_bits
  rw [UInt8.toNat_add]
  unfold width at h ⊢
  omega

theorem top_bit_toNat : (fp.total_bits - 1).toNat = fp.width - 1 := by
  have h := fp.width_cases
  have hone : (1 : UInt8).toNat = 1 := rfl
  have hle : (1 : UInt8) ≤ fp.total_bits := by
    rw [UInt8.le_iff_toNat_le, total_bits_toNat, hone]
    omega
  rw [UInt8.toNat_sub_of_le _ _ hle, total_bits_toNat, hone]

theorem raw_min_eq : fp.raw_min = .ok fp.lo := by
  unfold raw_min lo
  rw [top_bit_toNat]
  split
  · rcases fp.width_cases with h | h | h | h <;> rw [h] <;> decide
  · rfl

theorem raw_max_eq : fp.raw_max = .ok fp.hi := by
  unfold raw_max hi
  rw [top_bit_toNat, total_bits_toNat]
  split
  all_goals rcases fp.width_cases with h | h | h | h <;> rw [h] <;> decide

end

end FixedPoint

/-- A shape and a scaled integer. -/
structure FixedPointValue where
  fp : FixedPoint
  raw : Int
  deriving DecidableEq

/-- The integer is in the range of the shape. -/
structure FixedPointValue.InRange (v : FixedPointValue) : Prop where
  lo : v.fp.lo ≤ v.raw
  hi : v.raw ≤ v.fp.hi

/-- The rational number that the value stands for. -/
def FixedPointValue.value (v : FixedPointValue) : ℚ := v.raw / 2 ^ v.fp.bits_frac.toNat

def FixedPoint.encode_raw (fp : FixedPoint) (raw : Int) :
    Outcome (Except FixedPointError FixedPointValue) := do
  let raw_min ← fp.raw_min
  let raw_max ← fp.raw_max
  .ok (if raw < raw_min ∨ raw > raw_max then .error .RawOutOfRange else .ok ⟨fp, raw⟩)

/-! ## Arithmetic -/

def asOverflow : FixedPointError → FixedPointError
  | .RawOutOfRange => .Overflow
  | other => other

/-- `encode_raw` with its error mapped. -/
def encode (fp : FixedPoint) (raw : Int) : Outcome (Except FixedPointError FixedPointValue) :=
  (fp.encode_raw raw).map (Except.mapError asOverflow)

def fp_add (a b : FixedPointValue) : Outcome (Except FixedPointError FixedPointValue) :=
  if a.fp ≠ b.fp then .ok (.error .ShapeMismatch)
  else do
    let sum ← i128 (a.raw + b.raw)
    encode a.fp sum

def fp_sub (a b : FixedPointValue) : Outcome (Except FixedPointError FixedPointValue) :=
  if a.fp ≠ b.fp then .ok (.error .ShapeMismatch)
  else do
    let diff ← i128 (a.raw - b.raw)
    encode a.fp diff

/-- `u8::checked_add`. -/
def checked_u8 (a b : UInt8) : Option UInt8 := if a.toNat + b.toNat < 256 then some (a + b) else none

def fp_mul (a b : FixedPointValue) : Outcome (Except FixedPointError FixedPointValue) :=
  let result_signed := a.fp.signed || b.fp.signed
  match checked_u8 a.fp.bits_int b.fp.bits_int with
  | none => .ok (.error .Overflow)
  | some result_int =>
    match checked_u8 a.fp.bits_frac b.fp.bits_frac with
    | none => .ok (.error .Overflow)
    | some result_frac =>
      match FixedPoint.new result_int result_frac result_signed with
      | .error e => .ok (.error e)
      | .ok result_fp =>
        match checked_i128 (a.raw * b.raw) with
        | none => .ok (.error .Overflow)
        | some product => encode result_fp product

/-- `i128::checked_shl`. -/
def checked_shl (n : Nat) : Outcome (Option Int) :=
  if n < 128 then (shl_i128 n).map some else .ok none

/-- The dividend is scaled up before the division, which is a panic where the quotient is
no `i128`. -/
def fp_div (a b : FixedPointValue) (shift : UInt8) :
    Outcome (Except FixedPointError FixedPointValue) :=
  if a.fp ≠ b.fp then .ok (.error .ShapeMismatch)
  else if b.raw = 0 then .ok (.error .DivideByZero)
  else if shift > a.fp.bits_frac then .ok (.error .ShiftOutOfRange)
  else
    let result_frac := a.fp.bits_frac - shift
    match FixedPoint.new a.fp.bits_int result_frac a.fp.signed with
    | .error e => .ok (.error e)
    | .ok result_fp => do
      match ← checked_shl result_frac.toNat with
      | none => .ok (.error .Overflow)
      | some scale =>
        match checked_i128 (a.raw * scale) with
        | none => .ok (.error .Overflow)
        | some dividend => do
          let quotient ← i128 (dividend.tdiv b.raw)
          encode result_fp quotient

/-! ## What the range check gives -/

theorem encode_eq (fp : FixedPoint) (raw : Int) : encode fp raw
      = .ok (if fp.lo ≤ raw ∧ raw ≤ fp.hi then .ok ⟨fp, raw⟩ else .error .Overflow) := by
  unfold encode FixedPoint.encode_raw
  rw [fp.raw_min_eq, fp.raw_max_eq, ok_bind, ok_bind]
  by_cases h : fp.lo ≤ raw ∧ raw ≤ fp.hi
  · rw [if_pos h, if_neg (by omega)]
    rfl
  · rw [if_neg h, if_pos (by omega)]
    rfl

/-- The rational number that an integer of the shape stands for. -/
def FixedPoint.valueOf (fp : FixedPoint) (raw : Int) : ℚ := raw / 2 ^ fp.bits_frac.toNat

variable {fp : FixedPoint} {x : Int}

theorem valueOf_le {y : Int} : fp.valueOf x ≤ fp.valueOf y ↔ x ≤ y := by
  have hpos : (0 : ℚ) < 2 ^ fp.bits_frac.toNat := by positivity
  unfold FixedPoint.valueOf
  rw [div_le_div_iff_of_pos_right hpos, Int.cast_le]

/-- The number is between the least and the greatest of the shape. -/
def Declared (fp : FixedPoint) (q : ℚ) : Prop := fp.valueOf fp.lo ≤ q ∧ q ≤ fp.valueOf fp.hi

/-- The result is the number in that shape, or a trap exactly where the shape does not
reach it. -/
structure ExactOrTraps (fp : FixedPoint) (q : ℚ)
    (r : Outcome (Except FixedPointError FixedPointValue)) : Prop where
  exact : Declared fp q → ∃ v, r = .ok (.ok v) ∧ v.fp = fp ∧ v.InRange ∧ v.value = q
  traps : ¬ Declared fp q → r = .ok (.error .Overflow)

theorem encode_exactOrTraps {raw : Int} {q : ℚ} (h : fp.valueOf raw = q) :
    ExactOrTraps fp q (encode fp raw) := by
  subst h
  have hdeclared : Declared fp (fp.valueOf raw) ↔ fp.lo ≤ raw ∧ raw ≤ fp.hi := by
    unfold Declared
    rw [valueOf_le, valueOf_le]
  constructor
  · intro hd
    rw [hdeclared] at hd
    refine ⟨⟨fp, raw⟩, ?_, rfl, ⟨hd.1, hd.2⟩, rfl⟩
    rw [encode_eq, if_pos hd]
  · intro hd
    rw [hdeclared] at hd
    rw [encode_eq, if_neg hd]

/-! ## Bounds -/

namespace FixedPoint

/-- No value of the shape is larger in size. -/
def mag (fp : FixedPoint) : Int := if fp.signed then 2 ^ (fp.width - 1) else 2 ^ fp.width - 1

theorem mag_lt (fp : FixedPoint) : fp.mag < 2 ^ 64 := by
  unfold mag
  rcases fp.width_cases with h | h | h | h <;> rw [h] <;> split <;> norm_num

end FixedPoint

variable {a b : FixedPointValue}

theorem FixedPointValue.InRange.abs_raw_le (h : a.InRange) : |a.raw| ≤ a.fp.mag := by
  have hlo := h.lo
  have hhi := h.hi
  have hpos : (0 : Int) < 2 ^ (a.fp.width - 1) := by positivity
  rw [abs_le]
  unfold FixedPoint.lo FixedPoint.hi FixedPoint.mag at *
  split at hlo
  · rename_i hs
    rw [if_pos hs] at hhi ⊢
    omega
  · rename_i hs
    rw [if_neg hs] at hhi ⊢
    omega

theorem FixedPointValue.InRange.nonneg (h : a.InRange) (hs : a.fp.signed = false) : 0 ≤ a.raw := by
  have hlo := h.lo
  unfold FixedPoint.lo at hlo
  rwa [hs] at hlo

theorem inI128_of_range (h : fp.lo ≤ x ∧ x ≤ fp.hi) : InI128 x := by
  have hx := abs_le.mp (@FixedPointValue.InRange.abs_raw_le ⟨fp, x⟩ ⟨h.1, h.2⟩)
  have hmag := fp.mag_lt
  unfold InI128
  dsimp only at hx
  omega

theorem fp_add_exactOrTraps (ha : a.InRange) (hb : b.InRange) (h : a.fp = b.fp) :
    ExactOrTraps a.fp (a.value + b.value) (fp_add a b) := by
  have hrange : InI128 (a.raw + b.raw) := by
    have h1 := abs_le.mp ha.abs_raw_le
    have h2 := abs_le.mp hb.abs_raw_le
    have h3 := a.fp.mag_lt
    have h4 := b.fp.mag_lt
    unfold InI128
    omega
  unfold fp_add
  rw [if_neg (not_not.mpr h), i128_of hrange, ok_bind]
  apply encode_exactOrTraps
  unfold FixedPoint.valueOf FixedPointValue.value
  rw [← h]
  push_cast
  exact add_div _ _ _

theorem fp_sub_exactOrTraps (ha : a.InRange) (hb : b.InRange) (h : a.fp = b.fp) :
    ExactOrTraps a.fp (a.value - b.value) (fp_sub a b) := by
  have hrange : InI128 (a.raw - b.raw) := by
    have h1 := abs_le.mp ha.abs_raw_le
    have h2 := abs_le.mp hb.abs_raw_le
    have h3 := a.fp.mag_lt
    have h4 := b.fp.mag_lt
    unfold InI128
    omega
  unfold fp_sub
  rw [if_neg (not_not.mpr h), i128_of hrange, ok_bind]
  apply encode_exactOrTraps
  unfold FixedPoint.valueOf FixedPointValue.value
  rw [← h]
  push_cast
  exact sub_div _ _ _

/-! ## Products -/

theorem width_le (fp : FixedPoint) : fp.bits_int.toNat ≤ 64 ∧ fp.bits_frac.toNat ≤ 64 := by
  have h := fp.width_cases
  unfold FixedPoint.width at h
  omega

theorem checked_u8_of_le {x y : UInt8} (hx : x.toNat ≤ 64) (hy : y.toNat ≤ 64) :
    checked_u8 x y = some (x + y) ∧ (x + y).toNat = x.toNat + y.toNat := by
  refine ⟨if_pos (by omega), ?_⟩
  rw [UInt8.toNat_add]
  omega

theorem width_of_product (hw : a.fp.width + b.fp.width ∈ SUPPORTED_WIDTHS) :
    a.fp.width = b.fp.width ∧ a.fp.width ≤ 32 := by
  unfold SUPPORTED_WIDTHS at hw
  simp only [List.mem_cons, List.not_mem_nil, or_false] at hw
  rcases a.fp.width_cases with ha | ha | ha | ha <;>
    rcases b.fp.width_cases with hb | hb | hb | hb <;> omega

/-- The product of the extremes fits the shape of the product. -/
theorem product_inRange (ha : a.InRange) (hb : b.InRange) (hw : fp.width = a.fp.width + b.fp.width)
    (hs : fp.signed = (a.fp.signed || b.fp.signed)) :
    fp.lo ≤ a.raw * b.raw ∧ a.raw * b.raw ≤ fp.hi := by
  have hsize : |a.raw * b.raw| ≤ a.fp.mag * b.fp.mag := by
    rw [abs_mul]
    exact mul_le_mul ha.abs_raw_le hb.abs_raw_le (abs_nonneg _) (le_trans (abs_nonneg _) ha.abs_raw_le)
  obtain ⟨hlow, hhigh⟩ := abs_le.mp hsize
  obtain ⟨heq, hle⟩ := @width_of_product a b (hw ▸ fp.supported)
  have hnonneg : fp.signed = false → 0 ≤ a.raw * b.raw := by
    intro hfalse
    rw [hs, Bool.or_eq_false_iff] at hfalse
    exact mul_nonneg (ha.nonneg hfalse.1) (hb.nonneg hfalse.2)
  obtain ⟨n, hn⟩ : ∃ n, a.fp.width = n + 1 := by
    rcases a.fp.width_cases with h | h | h | h <;> exact ⟨_, h⟩
  have htop : (2 : Int) ^ (n + 1) = 2 * 2 ^ n := pow_succ' 2 n
  have hdouble : (2 : Int) ^ (n + 1 + (n + 1) - 1) = 2 * (2 ^ n * 2 ^ n) := by
    rw [← pow_add, ← pow_succ']
    congr 1
    omega
  have hwhole : (2 : Int) ^ (n + 1 + (n + 1)) = 4 * (2 ^ n * 2 ^ n) := by
    rw [pow_add, htop]
    ring
  have hone : (1 : Int) ≤ 2 ^ n := one_le_pow₀ (by norm_num)
  unfold FixedPoint.lo FixedPoint.hi
  unfold FixedPoint.mag at hlow hhigh
  rw [← heq, hn, Nat.add_sub_cancel] at hlow hhigh
  rw [hs] at hnonneg
  rw [hs, hw, ← heq, hn, hdouble, hwhole]
  rw [htop] at hlow hhigh
  generalize (2 : Int) ^ n = t at *
  have hsquare : t ≤ t * t := le_mul_of_one_le_left (by omega) hone
  cases hsa : a.fp.signed <;> cases hsb : b.fp.signed <;> rw [hsa, hsb] at hlow hhigh hnonneg
  · simp only [Bool.or_self, Bool.false_eq_true, if_false] at hhigh hnonneg ⊢
    exact ⟨hnonneg trivial, by nlinarith⟩
  · simp only [Bool.or_true, Bool.false_eq_true, if_false, if_true] at hlow hhigh ⊢
    constructor <;> nlinarith
  · simp only [Bool.or_false, Bool.false_eq_true, if_false, if_true] at hlow hhigh ⊢
    constructor <;> nlinarith
  · simp only [Bool.or_self, if_true] at hlow hhigh ⊢
    constructor <;> nlinarith

def productShape (a b : FixedPoint) (hw : a.width + b.width ∈ SUPPORTED_WIDTHS) : FixedPoint where
  bits_int := a.bits_int + b.bits_int
  bits_frac := a.bits_frac + b.bits_frac
  signed := a.signed || b.signed
  supported := by
    rw [(checked_u8_of_le (width_le a).1 (width_le b).1).2,
      (checked_u8_of_le (width_le a).2 (width_le b).2).2]
    unfold FixedPoint.width at hw
    rwa [Nat.add_add_add_comm] at hw

theorem width_productShape {hw : a.fp.width + b.fp.width ∈ SUPPORTED_WIDTHS} :
    (productShape a.fp b.fp hw).width = a.fp.width + b.fp.width := by
  unfold productShape FixedPoint.width
  dsimp only
  rw [(checked_u8_of_le (width_le a.fp).1 (width_le b.fp).1).2,
    (checked_u8_of_le (width_le a.fp).2 (width_le b.fp).2).2, Nat.add_add_add_comm]

/-- A product is exact, or its shape has no supported width. -/
theorem fp_mul_eq (ha : a.InRange) (hb : b.InRange) :
    fp_mul a b = .ok (if hw : a.fp.width + b.fp.width ∈ SUPPORTED_WIDTHS then
      .ok ⟨productShape a.fp b.fp hw, a.raw * b.raw⟩
      else .error (.InvalidWidth (a.fp.width + b.fp.width))) := by
  obtain ⟨hint, hintNat⟩ := checked_u8_of_le (width_le a.fp).1 (width_le b.fp).1
  obtain ⟨hfrac, hfracNat⟩ := checked_u8_of_le (width_le a.fp).2 (width_le b.fp).2
  have hsum : (a.fp.bits_int + b.fp.bits_int).toNat + (a.fp.bits_frac + b.fp.bits_frac).toNat
      = a.fp.width + b.fp.width := by
    rw [hintNat, hfracNat, Nat.add_add_add_comm]
    rfl
  unfold fp_mul
  rw [hint]
  dsimp only
  rw [hfrac]
  dsimp only
  by_cases hw : a.fp.width + b.fp.width ∈ SUPPORTED_WIDTHS
  · have hnew : FixedPoint.new (a.fp.bits_int + b.fp.bits_int) (a.fp.bits_frac + b.fp.bits_frac)
        (a.fp.signed || b.fp.signed) = .ok (productShape a.fp b.fp hw) := dif_pos (hsum ▸ hw)
    have hfits := product_inRange ha hb (@width_productShape a b hw) rfl
    have hrange : InI128 (a.raw * b.raw) := inI128_of_range hfits
    rw [hnew, checked_i128_of hrange, dif_pos hw]
    dsimp only
    rw [encode_eq, if_pos hfits]
  · have hnew : FixedPoint.new (a.fp.bits_int + b.fp.bits_int) (a.fp.bits_frac + b.fp.bits_frac)
        (a.fp.signed || b.fp.signed) = .error (.InvalidWidth (a.fp.width + b.fp.width)) := by
      unfold FixedPoint.new
      rw [dif_neg (hsum ▸ hw), hsum]
    rw [hnew, dif_neg hw]

/-- The product is the exact one where its width is supported, and no trap. -/
structure ProductExact (a b : FixedPointValue) (r : Outcome (Except FixedPointError FixedPointValue)) :
    Prop where
  ok_iff : (∃ v, r = .ok (.ok v)) ↔ a.fp.width + b.fp.width ∈ SUPPORTED_WIDTHS
  exact : ∀ v, r = .ok (.ok v) → v.InRange ∧ v.value = a.value * b.value
  no_trap : r ≠ .ok (.error .Overflow)
  no_panic : ∃ x, r = .ok x

theorem fp_mul_exact (ha : a.InRange) (hb : b.InRange) : ProductExact a b (fp_mul a b) := by
  rw [fp_mul_eq ha hb]
  by_cases hw : a.fp.width + b.fp.width ∈ SUPPORTED_WIDTHS
  · rw [dif_pos hw]
    refine ⟨iff_of_true ⟨_, rfl⟩ hw, ?_, ?_, ⟨_, rfl⟩⟩
    · intro v hv
      cases hv
      have hfits := product_inRange ha hb (@width_productShape a b hw) rfl
      refine ⟨⟨hfits.1, hfits.2⟩, ?_⟩
      unfold FixedPointValue.value productShape
      dsimp only
      rw [(checked_u8_of_le (width_le a.fp).2 (width_le b.fp).2).2, pow_add, div_mul_div_comm]
      push_cast
      rfl
    · intro h
      cases h
  · rw [dif_neg hw]
    refine ⟨iff_of_false ?_ hw, ?_, ?_, ⟨_, rfl⟩⟩
    · rintro ⟨v, hv⟩
      cases hv
    · intro v hv
      cases hv
    · intro h
      cases h

/-- Sums, differences and products are exact or trap. -/
theorem arithmetic_exact_or_traps {a b : FixedPointValue} (ha : a.InRange) (hb : b.InRange) :
    (a.fp = b.fp → ExactOrTraps a.fp (a.value + b.value) (fp_add a b) ∧
      ExactOrTraps a.fp (a.value - b.value) (fp_sub a b)) ∧
    (a.fp ≠ b.fp → fp_add a b = .ok (.error .ShapeMismatch) ∧
      fp_sub a b = .ok (.error .ShapeMismatch)) ∧
    ProductExact a b (fp_mul a b) :=
  ⟨fun h => ⟨fp_add_exactOrTraps ha hb h, fp_sub_exactOrTraps ha hb h⟩,
    fun h => ⟨if_pos h, if_pos h⟩, fp_mul_exact ha hb⟩

/-- Signed Q1.7. -/
def q1_7 : FixedPoint := ⟨1, 7, true, by decide⟩

/-- The square of the least number of Q1.7 fits Q2.14. -/
theorem least_times_least :
    (⟨q1_7, -128⟩ : FixedPointValue).InRange ∧
      ProductExact ⟨q1_7, -128⟩ ⟨q1_7, -128⟩ (fp_mul ⟨q1_7, -128⟩ ⟨q1_7, -128⟩) :=
  ⟨⟨by decide, by decide⟩,
    (arithmetic_exact_or_traps ⟨by decide, by decide⟩ ⟨by decide, by decide⟩).2.2⟩

/-! ## Quotients -/

/-- The fractional bits of a quotient. -/
def resultFrac (fp : FixedPoint) (shift : UInt8) : Nat := fp.bits_frac.toNat - shift.toNat

def quotientShape (fp : FixedPoint) (shift : UInt8)
    (hw : fp.bits_int.toNat + (fp.bits_frac - shift).toNat ∈ SUPPORTED_WIDTHS) : FixedPoint :=
  ⟨fp.bits_int, fp.bits_frac - shift, fp.signed, hw⟩

/-- The quotient is the scaled dividend divided toward zero, or a trap where the shape of
the result does not reach it. -/
def DividesExactly (a b : FixedPointValue) (shift : UInt8) : Prop :=
  ∀ hw : a.fp.bits_int.toNat + (a.fp.bits_frac - shift).toNat ∈ SUPPORTED_WIDTHS,
    let fp := quotientShape a.fp shift hw
    let quotient := (a.raw * 2 ^ resultFrac a.fp shift).tdiv b.raw
    fp_div a b shift
      = .ok (if fp.lo ≤ quotient ∧ quotient ≤ fp.hi then .ok ⟨fp, quotient⟩ else .error .Overflow)

/-- The unsigned shape without integer bits: from one half on the scaled dividend is no
`i128`, though below the divisor the quotient fits. -/
def DividendTooLarge (a b : FixedPointValue) (shift : UInt8) : Prop :=
  a.fp.signed = false ∧ resultFrac a.fp shift = 64 ∧ 2 ^ 63 ≤ a.raw ∧ a.raw < b.raw

/-- The signed shape without integer bits: the least number divided by the one below
zero is a quotient that is no `i128`. -/
def QuotientTooLarge (a b : FixedPointValue) (shift : UInt8) : Prop :=
  a.fp.signed = true ∧ resultFrac a.fp shift = 64 ∧ a.raw = -2 ^ 63 ∧ b.raw = -1

variable {shift : UInt8}

theorem sub_shift_toNat (h : shift ≤ fp.bits_frac) :
    (fp.bits_frac - shift).toNat = resultFrac fp shift :=
  UInt8.toNat_sub_of_le _ _ h

/-- What the division comes to, once its operands are accepted. -/
theorem fp_div_eq (hfp : a.fp = b.fp) (hb : b.raw ≠ 0) (hshift : shift ≤ a.fp.bits_frac)
    (hw : a.fp.bits_int.toNat + (a.fp.bits_frac - shift).toNat ∈ SUPPORTED_WIDTHS) :
    fp_div a b shift =
      (match checked_i128 (a.raw * 2 ^ resultFrac a.fp shift) with
      | none => .ok (.error .Overflow)
      | some dividend =>
        i128 (dividend.tdiv b.raw) >>= encode (quotientShape a.fp shift hw)) := by
  have hsub := sub_shift_toNat hshift
  have hle := (width_le a.fp).2
  have hnew : FixedPoint.new a.fp.bits_int (a.fp.bits_frac - shift) a.fp.signed
      = .ok (quotientShape a.fp shift hw) := dif_pos hw
  have hshl : checked_shl (a.fp.bits_frac - shift).toNat = .ok (some (2 ^ resultFrac a.fp shift)) := by
    unfold resultFrac at hsub
    unfold checked_shl
    rw [if_pos (by omega), shl_i128_of_lt (by omega), sub_shift_toNat hshift]
    rfl
  unfold fp_div
  rw [if_neg (not_not.mpr hfp), if_neg hb, if_neg (UInt8.not_lt.mpr hshift)]
  dsimp only
  rw [hnew]
  dsimp only
  rw [hshl]
  rfl

theorem tdiv_inI128 {y : Int} (hx : InI128 x) (hy : y ≠ 0) (hmin : ¬ (x = -2 ^ 127 ∧ y = -1)) :
    InI128 (x.tdiv y) := by
  unfold InI128 at *
  have habs : (x.tdiv y).natAbs ≤ x.natAbs := Int.natAbs_tdiv_le_natAbs x y
  by_cases hx127 : x = -2 ^ 127
  · have hy1 : y ≠ -1 := fun h => hmin ⟨hx127, h⟩
    rcases Int.lt_or_gt_of_ne hy with hneg | hpos
    · have htwo : (x.tdiv y).natAbs ≤ x.natAbs / 2 := by
        rw [Int.natAbs_tdiv]
        exact Nat.div_le_div_left (by omega) (by decide)
      omega
    · have hsign : x.tdiv y ≤ 0 := by
        have h := Int.tdiv_nonneg (show 0 ≤ -x by omega) (Int.le_of_lt hpos)
        rw [Int.neg_tdiv] at h
        omega
      omega
  · omega

/-- Only without integer bits the dividend can be too large, or the least `i128`. -/
theorem scaled_bounds (ha : a.InRange) (shift : UInt8) :
    (InI128 (a.raw * 2 ^ resultFrac a.fp shift) ↔
      ¬ (a.fp.signed = false ∧ resultFrac a.fp shift = 64 ∧ 2 ^ 63 ≤ a.raw)) ∧
    (a.raw * 2 ^ resultFrac a.fp shift = -2 ^ 127 ↔
      a.fp.signed = true ∧ resultFrac a.fp shift = 64 ∧ a.raw = -2 ^ 63) := by
  have hwidth := a.fp.width_cases
  have hfrac : resultFrac a.fp shift ≤ a.fp.width := by
    unfold resultFrac FixedPoint.width
    omega
  by_cases h64 : resultFrac a.fp shift = 64
  · have hw : a.fp.width = 64 := by omega
    have hlo := ha.lo
    have hhi := ha.hi
    unfold FixedPoint.lo FixedPoint.hi at *
    rw [hw] at hlo hhi
    rw [h64]
    unfold InI128
    cases hs : a.fp.signed <;> rw [hs] at hlo hhi <;>
      simp only [Bool.false_eq_true, if_false, if_true, true_and, false_and, reduceCtorEq] at *
    · norm_num at hlo hhi ⊢
      omega
    · norm_num at hlo hhi ⊢
      omega
  · have hpow : (2 : Int) ^ resultFrac a.fp shift ≤ 2 ^ 63 :=
      pow_le_pow_right₀ (by norm_num) (by omega)
    have hmag := a.fp.mag_lt
    have hsize : |a.raw * 2 ^ resultFrac a.fp shift| ≤ (2 ^ 64 - 1) * 2 ^ 63 := by
      rw [abs_mul, abs_of_pos (by positivity : (0 : Int) < 2 ^ resultFrac a.fp shift)]
      exact mul_le_mul (by have := ha.abs_raw_le; omega) hpow (by positivity) (by norm_num)
    obtain ⟨hlow, hhigh⟩ := abs_le.mp hsize
    unfold InI128
    constructor
    · refine iff_of_true (by omega) fun h => h64 h.2.1
    · refine iff_of_false (by omega) fun h => h64 h.2.1

/-- In the unsigned shape without integer bits a quotient fits below the divisor. -/
theorem quotient_fits_iff (ha : a.InRange) (hb : b.InRange) (hfp : a.fp = b.fp) (hb0 : b.raw ≠ 0)
    (hs : a.fp.signed = false) (h64 : resultFrac a.fp shift = 64)
    (hw : a.fp.bits_int.toNat + (a.fp.bits_frac - shift).toNat ∈ SUPPORTED_WIDTHS)
    (hshift : shift ≤ a.fp.bits_frac) :
    ((quotientShape a.fp shift hw).lo ≤ (a.raw * 2 ^ resultFrac a.fp shift).tdiv b.raw ∧
      (a.raw * 2 ^ resultFrac a.fp shift).tdiv b.raw ≤ (quotientShape a.fp shift hw).hi) ↔
      a.raw < b.raw := by
  have hnonneg := ha.nonneg hs
  have hpos : 0 < b.raw := lt_of_le_of_ne (hb.nonneg (hfp ▸ hs)) (Ne.symm hb0)
  have hwidth : (quotientShape a.fp shift hw).width = 64 := by
    have hcases := (quotientShape a.fp shift hw).width_cases
    unfold quotientShape FixedPoint.width at *
    dsimp only at *
    rw [sub_shift_toNat hshift, h64] at *
    omega
  have hsigned : (quotientShape a.fp shift hw).signed = false := hs
  have hdividend : 0 ≤ a.raw * 2 ^ resultFrac a.fp shift := mul_nonneg hnonneg (by positivity)
  unfold FixedPoint.lo FixedPoint.hi
  rw [hwidth, hsigned, if_neg Bool.false_ne_true, if_neg Bool.false_ne_true,
    Int.tdiv_eq_ediv_of_nonneg hdividend, h64]
  have hlow : 0 ≤ a.raw * 2 ^ 64 / b.raw := Int.ediv_nonneg (by omega) (by omega)
  rw [and_iff_right hlow, Int.le_sub_one_iff, Int.ediv_lt_iff_lt_mul hpos]
  constructor
  · intro h
    omega
  · intro h
    omega

/-- The division does what it says but for two kinds of operands without integer bits. -/
theorem divides_exactly_iff {a b : FixedPointValue} {shift : UInt8} (ha : a.InRange)
    (hb : b.InRange) (hfp : a.fp = b.fp) (hb0 : b.raw ≠ 0) (hshift : shift ≤ a.fp.bits_frac)
    (hw : a.fp.bits_int.toNat + (a.fp.bits_frac - shift).toNat ∈ SUPPORTED_WIDTHS) :
    DividesExactly a b shift ↔ ¬ DividendTooLarge a b shift ∧ ¬ QuotientTooLarge a b shift := by
  obtain ⟨hrange, hleast⟩ := scaled_bounds ha shift
  unfold DividesExactly
  rw [forall_prop_of_true hw]
  dsimp only
  rw [fp_div_eq hfp hb0 hshift hw]
  by_cases hlarge : a.fp.signed = false ∧ resultFrac a.fp shift = 64 ∧ 2 ^ 63 ≤ a.raw
  · obtain ⟨hs, h64, hhalf⟩ := hlarge
    have hout : ¬ InI128 (a.raw * 2 ^ resultFrac a.fp shift) := fun h => hrange.mp h ⟨hs, h64, hhalf⟩
    have hunsigned : ¬ QuotientTooLarge a b shift := fun h => by
      rw [h.1] at hs
      cases hs
    rw [checked_i128_eq_none hout, and_iff_left hunsigned]
    simp only [quotient_fits_iff ha hb hfp hb0 hs h64 hw hshift]
    unfold DividendTooLarge
    by_cases hlt : a.raw < b.raw
    · rw [if_pos hlt]
      refine iff_of_false ?_ fun h => h ⟨hs, h64, hhalf, hlt⟩
      intro h
      cases h
    · rw [if_neg hlt]
      exact iff_of_true rfl fun h => hlt h.2.2.2
  · have hin : InI128 (a.raw * 2 ^ resultFrac a.fp shift) := hrange.mpr hlarge
    have hsmall : ¬ DividendTooLarge a b shift := fun h => hlarge ⟨h.1, h.2.1, h.2.2.1⟩
    rw [checked_i128_of hin, and_iff_right hsmall]
    dsimp only
    by_cases hpanic : QuotientTooLarge a b shift
    · have hq : ¬ InI128 ((a.raw * 2 ^ resultFrac a.fp shift).tdiv b.raw) := by
        rw [hleast.mpr ⟨hpanic.1, hpanic.2.1, hpanic.2.2.1⟩, hpanic.2.2.2]
        decide
      refine iff_of_false ?_ fun h => h hpanic
      unfold i128
      rw [if_neg hq]
      intro h
      cases h
    · have hmin : ¬ (a.raw * 2 ^ resultFrac a.fp shift = -2 ^ 127 ∧ b.raw = -1) := by
        rintro ⟨hdividend, hone⟩
        obtain ⟨hs, h64, hraw⟩ := hleast.mp hdividend
        exact hpanic ⟨hs, h64, hraw, hone⟩
      rw [i128_of (tdiv_inI128 hin hb0 hmin), Outcome.ok_bind, encode_eq]
      exact iff_of_true rfl hpanic

/-- Unsigned Q0.64. -/
def q0_64 : FixedPoint := ⟨0, 64, false, by decide⟩

theorem one_quarter_by_one_half :
    DividesExactly ⟨q0_64, 2 ^ 62⟩ ⟨q0_64, 2 ^ 63⟩ 0 ↔
      ¬ DividendTooLarge ⟨q0_64, 2 ^ 62⟩ ⟨q0_64, 2 ^ 63⟩ 0 ∧
        ¬ QuotientTooLarge ⟨q0_64, 2 ^ 62⟩ ⟨q0_64, 2 ^ 63⟩ 0 :=
  divides_exactly_iff ⟨by decide, by decide⟩ ⟨by decide, by decide⟩ rfl (by decide) (by decide)
    (by decide)

/-- One half by nearly one is a trap, though the quotient is a little over one half. -/
theorem one_half_traps :
    ¬ ∀ (a b : FixedPointValue) (shift : UInt8), a.InRange → b.InRange → a.fp = b.fp → b.raw ≠ 0 →
      shift ≤ a.fp.bits_frac →
        a.fp.bits_int.toNat + (a.fp.bits_frac - shift).toNat ∈ SUPPORTED_WIDTHS →
          DividesExactly a b shift := by
  intro h
  have hdiv := h ⟨q0_64, 2 ^ 63⟩ ⟨q0_64, 2 ^ 64 - 1⟩ 0 ⟨by decide, by decide⟩ ⟨by decide, by decide⟩
    rfl (by decide) (by decide) (by decide) (by decide)
  revert hdiv
  decide

end paideia_as_types.fixed_point
