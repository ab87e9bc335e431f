-- A fold over the whole blocks of a list. Numbers in limbs of 32 bits, the lowest
-- first: the loops with a carry or a borrow, the schoolbook product, and the
-- remainder taken one bit at a time.
import PaideiaAs.Lib.Bytes

namespace Blocks

variable {α σ : Type} {n : Nat}

/-- A list of the length of a block. -/
abbrev Block (α : Type) (n : Nat) : Type := { bs : List α // bs.length = n }

def first (xs : List α) (h : n ≤ xs.length) : Block α n :=
  ⟨xs.take n, by rw [List.length_take]; omega⟩

/-- The step `f`, block after block. -/
def fold (hn : 0 < n) (f : σ → Block α n → σ) (s : σ) (xs : List α) : σ :=
  if h : n ≤ xs.length then fold hn f (f s (first xs h)) (xs.drop n) else s
termination_by xs.length
decreasing_by
  rw [List.length_drop]
  omega

variable (hn : 0 < n) (f : σ → Block α n → σ)

theorem fold_short (s : σ) {xs : List α} (h : xs.length < n) : fold hn f s xs = s := by
  rw [fold, dif_neg (by omega)]

@[simp] theorem fold_nil (s : σ) : fold hn f s [] = s := fold_short hn f s (by exact hn)

theorem fold_cons (s : σ) (b : Block α n) (xs : List α) :
    fold hn f s (b.1 ++ xs) = fold hn f (f s b) xs := by
  have hb := b.2
  have hfirst : ∀ h, first (b.1 ++ xs) h = b := by
    intro h
    apply Subtype.ext
    exact List.take_left' hb
  rw [fold, dif_pos (by rw [List.length_append]; omega), hfirst, List.drop_left' hb]

theorem fold_block (s : σ) (b : Block α n) : fold hn f s b.1 = f s b := by
  rw [← List.append_nil b.1, fold_cons, fold_nil]

/-- A list of whole blocks comes first. -/
theorem fold_append (s : σ) {xs : List α} (h : n ∣ xs.length) (ys : List α) :
    fold hn f s (xs ++ ys) = fold hn f (fold hn f s xs) ys := by
  obtain ⟨k, hk⟩ := h
  induction k generalizing s xs with
  | zero =>
    obtain rfl := List.length_eq_zero_iff.1 hk
    rw [List.nil_append, fold_nil]
  | succ k ih =>
    rw [Nat.mul_succ] at hk
    have hle : n ≤ xs.length := by omega
    have hxs : (first xs hle).1 ++ xs.drop n = xs := List.take_append_drop n xs
    rw [← hxs, List.append_assoc, fold_cons, fold_cons]
    exact ih _ (by rw [List.length_drop, hk]; omega)

end Blocks

namespace Limbs

open Blocks
open UInt32 (ofNat toNat_ofNat' toNat_toUInt64)
open List (cons_append eq_nil_of_length_eq_zero length_cons replicate)
open UInt64 (toNat_add)
open Nat (mod_eq_of_lt mod_lt mul_zero)
open Bytes (length_le ofLe)

abbrev Words (n : Nat) : Type := Block UInt32 n

/-- The number that the limbs stand for. -/
def val : List UInt32 → Nat
  | [] => 0
  | x :: xs => x.toNat + 2 ^ 32 * val xs

theorem val_cons (x : UInt32) (xs : List UInt32) : val (x :: xs) = x.toNat + 2 ^ 32 * val xs := rfl

theorem pow_step (n : Nat) : 2 ^ (32 * (n + 1)) = 2 ^ 32 * 2 ^ (32 * n) := by
  rw [Nat.mul_succ, Nat.add_comm, Nat.pow_add]

theorem val_lt (xs : List UInt32) : val xs < 2 ^ (32 * xs.length) := by
  induction xs with
  | nil => decide
  | cons x xs ih =>
    have hx := x.toNat_lt
    rw [length_cons, pow_step]
    unfold val
    omega

theorem val_append (xs ys : List UInt32) :
    val (xs ++ ys) = val xs + 2 ^ (32 * xs.length) * val ys := by
  induction xs with
  | nil => simp [val]
  | cons x xs ih =>
    rw [cons_append, val, val, ih, length_cons, pow_step]
    ring

theorem val_zeros (n : Nat) : val (replicate n 0) = 0 := by
  induction n with
  | zero => rfl
  | succ n ih =>
    rw [List.replicate_succ, val, ih]
    rfl

theorem val_inj {xs ys : List UInt32} (hlen : xs.length = ys.length) (h : val xs = val ys) :
    xs = ys := by
  induction xs generalizing ys with
  | nil => exact (eq_nil_of_length_eq_zero hlen.symm).symm
  | cons x xs ih =>
    cases ys with
    | nil => cases hlen
    | cons y ys =>
      have hx := x.toNat_lt
      have hy := y.toNat_lt
      unfold val at h
      have hhead : x.toNat = y.toNat := by omega
      rw [UInt32.toNat_inj.1 hhead, ih (Nat.succ.inj hlen) (by omega)]

/-- `(l[i / 32] >> (i % 32)) & 1`. -/
def bit (l : List UInt32) (i : Nat) : UInt32 := (l.getD (i / 32) 0 >>> ofNat (i % 32)) &&& 1

theorem getD_toNat (l : List UInt32) (i : Nat) :
    (l.getD i 0).toNat = val l / 2 ^ (32 * i) % 2 ^ 32 := by
  induction l generalizing i with
  | nil => simp [val]
  | cons x xs ih =>
    have hx := x.toNat_lt
    cases i with
    | zero =>
      rw [List.getD_cons_zero, mul_zero, pow_zero, Nat.div_one, val]
      omega
    | succ i =>
      have hdiv : val (x :: xs) / 2 ^ 32 = val xs := by
        rw [val_cons]
        omega
      rw [List.getD_cons_succ, ih, pow_step, ← Nat.div_div_eq_div_mul, hdiv]

theorem bit_toNat (l : List UInt32) (i : Nat) : (bit l i).toNat = val l / 2 ^ i % 2 := by
  have hi : 32 * (i / 32) + i % 32 = i := Nat.div_add_mod i 32
  have hpow : (2 : Nat) ^ 32 = 2 ^ (i % 32) * 2 ^ (32 - i % 32) := by
    rw [← Nat.pow_add]
    congr 1
    omega
  have h1 : (1 : UInt32).toNat = 2 ^ 1 - 1 := rfl
  have hlt : i % 32 < 2 ^ 32 := by omega
  unfold bit
  rw [UInt32.toNat_and, UInt32.toNat_shiftRight, getD_toNat, h1, Nat.and_two_pow_sub_one_eq_mod,
    Nat.shiftRight_eq_div_pow, toNat_ofNat', mod_eq_of_lt hlt, Nat.mod_mod, hpow,
    Nat.mod_mul_right_div_self, Nat.div_div_eq_div_mul, ← Nat.pow_add, hi]
  apply Nat.mod_mod_of_dvd
  exact dvd_pow (Nat.dvd_refl 2) (by omega)

/-- The digits below `i` compared, the highest first. -/
def compareDown (f g : Nat → Nat) : Nat → Ordering
  | 0 => .eq
  | i + 1 => if f i < g i then .lt else if f i > g i then .gt else compareDown f g i

theorem compareDown_eq {base N M : Nat} {f g : Nat → Nat} (hbase : 0 < base)
    (hf : ∀ i, f i = N / base ^ i % base) (hg : ∀ i, g i = M / base ^ i % base) (n : Nat) :
    compareDown f g n = compare (N % base ^ n) (M % base ^ n) := by
  induction n with
  | zero =>
    rw [pow_zero, Nat.mod_one, Nat.mod_one]
    rfl
  | succ n ih =>
    have hpos : 0 < base ^ n := Nat.pow_pos hbase
    have hN := mod_lt N hpos
    have hM := mod_lt M hpos
    unfold compareDown
    rw [ih, Nat.pow_succ, Nat.mod_mul, Nat.mod_mul, ← hf, ← hg]
    generalize base ^ n = k at *
    have hlt : ∀ {r s x y : Nat}, r < k → x < y → r + k * x < s + k * y := by
      intro r s x y hr hxy
      have := Nat.mul_le_mul_left k hxy
      rw [Nat.mul_succ] at this
      omega
    split
    · rename_i h
      exact (Nat.compare_eq_lt.2 (hlt hN h)).symm
    · split
      · rename_i h
        exact (Nat.compare_eq_gt.2 (hlt hM h)).symm
      · have heq : f n = g n := by omega
        rw [heq]
        rcases Nat.lt_trichotomy (N % k) (M % k) with h | h | h
        · rw [Nat.compare_eq_lt.2 h, Nat.compare_eq_lt.2 (Nat.add_lt_add_right h _)]
        · rw [h]
          simp
        · rw [Nat.compare_eq_gt.2 h, Nat.compare_eq_gt.2 (Nat.add_lt_add_right h _)]

/-! ## Subtraction and addition -/

/-- The limbs of a difference, and the borrow. -/
def subtract : List UInt32 → List UInt32 → Nat → List UInt32 × Nat
  | x :: xs, m :: ms, borrow =>
    let t : Int := (x.toNat : Int) - m.toNat - borrow
    let d := if t < 0 then ofNat (t + 2 ^ 32).toNat else ofNat t.toNat
    let rest := subtract xs ms (if t < 0 then 1 else 0)
    (d :: rest.1, rest.2)
  | _, _, borrow => ([], borrow)

theorem subtract_spec {xs ms : List UInt32} {borrow : Nat} (hlen : xs.length = ms.length)
    (hb : borrow ≤ 1) :
    val (subtract xs ms borrow).1 + val ms + borrow =
        val xs + 2 ^ (32 * xs.length) * (subtract xs ms borrow).2 ∧
      (subtract xs ms borrow).2 ≤ 1 ∧ (subtract xs ms borrow).1.length = xs.length := by
  induction xs generalizing ms borrow with
  | nil =>
    obtain rfl := eq_nil_of_length_eq_zero hlen.symm
    simp [subtract, val, hb]
  | cons x xs ih =>
    cases ms with
    | nil => cases hlen
    | cons m ms =>
      have hx := x.toNat_lt
      have hm := m.toNat_lt
      unfold subtract
      extract_lets t d rest
      -- the borrow of this limb goes into the others
      obtain ⟨hval, hle, hl⟩ := @ih ms (if t < 0 then 1 else 0)
        (Nat.succ.inj hlen) (by split <;> decide)
      change val rest.1 + _ + _ = _ + _ * rest.2 at hval
      change rest.2 ≤ 1 at hle
      change rest.1.length = _ at hl
      have hd : (d.toNat : Int) = t + 2 ^ 32 * (if t < 0 then 1 else 0 : Nat) := by
        unfold d
        by_cases ht : t < 0
        · rw [if_pos ht, if_pos ht, toNat_ofNat']
          omega
        · rw [if_neg ht, if_neg ht, toNat_ofNat']
          omega
      generalize (if t < 0 then 1 else 0 : Nat) = b at *
      refine ⟨?_, hle, by simp only [length_cons, hl]⟩
      have ht : t = (x.toNat : Int) - m.toNat - borrow := rfl
      rw [length_cons, pow_step, Nat.mul_assoc]
      unfold val
      generalize 2 ^ (32 * xs.length) * rest.2 = w at *
      omega

/-- The limbs past those of `ms` are not read. -/
theorem subtract_append (lo hi ms : List UInt32) (borrow : Nat) (hlen : lo.length = ms.length) :
    subtract (lo ++ hi) ms borrow = subtract lo ms borrow := by
  induction lo generalizing ms borrow with
  | nil =>
    obtain rfl := eq_nil_of_length_eq_zero hlen.symm
    cases hi <;> rfl
  | cons x lo ih =>
    cases ms with
    | nil => cases hlen
    | cons m ms =>
      rw [cons_append, subtract, subtract, ih ms _ (Nat.succ.inj hlen)]

/-- The limbs of a sum, and the carry. -/
def add : List UInt32 → List UInt32 → UInt64 → List UInt32 × UInt64
  | x :: xs, y :: ys, carry =>
    let t := x.toUInt64 + y.toUInt64 + carry
    let rest := add xs ys (t >>> 32)
    (t.toUInt32 :: rest.1, rest.2)
  | _, _, carry => ([], carry)

theorem low_toNat (t : UInt64) : t.toUInt32.toNat = t.toNat % 2 ^ 32 := UInt64.toNat_toUInt32 t

theorem high_toNat (t : UInt64) : (t >>> 32).toNat = t.toNat / 2 ^ 32 := by
  rw [UInt64.toNat_shiftRight]
  exact Nat.shiftRight_eq_div_pow _ _

/-- A product of two limbs and two more summands fit in a word. -/
theorem muladd_toNat (x y p : UInt32) {carry : UInt64} (hc : carry.toNat < 2 ^ 32) :
    (x.toUInt64 * y.toUInt64 + p.toUInt64 + carry).toNat =
      x.toNat * y.toNat + p.toNat + carry.toNat := by
  have hx := x.toNat_lt
  have hy := y.toNat_lt
  have hp := p.toNat_lt
  have hmul : x.toNat * y.toNat ≤ (2 ^ 32 - 1) * (2 ^ 32 - 1) :=
    Nat.mul_le_mul (by omega) (by omega)
  rw [toNat_add, toNat_add, UInt64.toNat_mul, toNat_toUInt64, toNat_toUInt64, toNat_toUInt64]
  omega

theorem sum_toNat (x y : UInt32) {carry : UInt64} (hc : carry.toNat < 2 ^ 32) :
    (x.toUInt64 + y.toUInt64 + carry).toNat = x.toNat + y.toNat + carry.toNat := by
  have hx := x.toNat_lt
  have hy := y.toNat_lt
  rw [toNat_add, toNat_add, toNat_toUInt64, toNat_toUInt64]
  omega

theorem add_spec {xs ys : List UInt32} {carry : UInt64} (hlen : xs.length = ys.length)
    (hc : carry.toNat ≤ 1) :
    val (add xs ys carry).1 + 2 ^ (32 * xs.length) * (add xs ys carry).2.toNat =
        val xs + val ys + carry.toNat ∧
      (add xs ys carry).2.toNat ≤ 1 ∧ (add xs ys carry).1.length = xs.length := by
  induction xs generalizing ys carry with
  | nil =>
    obtain rfl := eq_nil_of_length_eq_zero hlen.symm
    simp [add, val, hc]
  | cons x xs ih =>
    cases ys with
    | nil => cases hlen
    | cons y ys =>
      have hx := x.toNat_lt
      have hy := y.toNat_lt
      unfold add
      extract_lets t rest
      have ht : t.toNat = x.toNat + y.toNat + carry.toNat := sum_toNat x y (by omega)
      have hlow := low_toNat t
      have hhigh := high_toNat t
      obtain ⟨hval, hle, hl⟩ := @ih ys (t >>> 32) (Nat.succ.inj hlen) (by omega)
      change val rest.1 + _ * rest.2.toNat = _ at hval
      change rest.2.toNat ≤ 1 at hle
      change rest.1.length = _ at hl
      refine ⟨?_, hle, by simp only [length_cons, hl]⟩
      rw [length_cons, pow_step, Nat.mul_assoc]
      unfold val
      generalize 2 ^ (32 * xs.length) * rest.2.toNat = w at *
      omega

/-- A carry brought into the limbs, which stops as soon as there is none. -/
def propagate : List UInt32 → UInt64 → List UInt32
  | [], _ => []
  | x :: xs, carry =>
    let t := x.toUInt64 + carry
    if t >>> 32 == 0 then t.toUInt32 :: xs else t.toUInt32 :: propagate xs (t >>> 32)

theorem length_propagate (xs : List UInt32) (carry : UInt64) :
    (propagate xs carry).length = xs.length := by
  induction xs generalizing carry with
  | nil => rfl
  | cons x xs ih =>
    unfold propagate
    extract_lets t
    split
    · rfl
    · rw [length_cons, ih, length_cons]

theorem val_propagate {xs : List UInt32} {carry : UInt64} (hc : carry.toNat ≤ 1)
    (hfit : val xs + carry.toNat < 2 ^ (32 * xs.length)) :
    val (propagate xs carry) = val xs + carry.toNat := by
  induction xs generalizing carry with
  | nil =>
    simp only [val, List.length_nil, mul_zero, pow_zero] at hfit
    have hzero : carry.toNat = 0 := by omega
    exact hzero ▸ rfl
  | cons x xs ih =>
    have hx := x.toNat_lt
    rw [length_cons, pow_step] at hfit
    unfold propagate
    extract_lets t
    have ht : t.toNat = x.toNat + carry.toNat := by
      unfold t
      rw [toNat_add, toNat_toUInt64]
      omega
    have hlow := low_toNat t
    have hhigh := high_toNat t
    unfold val at hfit
    by_cases hz : t >>> 32 = 0
    · rw [if_pos (beq_iff_eq.2 hz)]
      rw [hz] at hhigh
      have hzero : (0 : UInt64).toNat = 0 := rfl
      unfold val
      omega
    · have hval := @ih (t >>> 32) (by omega) (by omega)
      rw [if_neg (fun h => hz (beq_iff_eq.1 h))]
      unfold val
      omega

/-! ## The product -/

/-- One row of the schoolbook product, added to the limbs of `p`; what is carried out of
it goes into the next limb. -/
def mulRow (x : UInt32) : List UInt32 → List UInt32 → UInt64 → List UInt32
  | y :: ys, p :: ps, carry =>
    let t := x.toUInt64 * y.toUInt64 + p.toUInt64 + carry
    t.toUInt32 :: mulRow x ys ps (t >>> 32)
  | [], p :: ps, carry => (p + carry.toUInt32) :: ps
  | _, [], _ => []

/-- The rows, each one limb further. -/
def mulRows : List UInt32 → List UInt32 → List UInt32 → List UInt32
  | [], _, p => p
  | x :: xs, ys, p =>
    match mulRow x ys p 0 with
    | [] => []
    | q :: qs => q :: mulRows xs ys qs

/-- A row that starts over a zero limb fills it. -/
theorem mulRow_spec (x : UInt32) {ys lo : List UInt32} {carry : UInt64} (hi : List UInt32)
    (hlen : lo.length = ys.length) (hc : carry.toNat < 2 ^ 32) :
    ∃ l, mulRow x ys (lo ++ 0 :: hi) carry = l ++ hi ∧ l.length = ys.length + 1 ∧
      val l = val lo + x.toNat * val ys + carry.toNat := by
  induction ys generalizing lo carry with
  | nil =>
    obtain rfl := eq_nil_of_length_eq_zero hlen
    refine ⟨[0 + carry.toUInt32], rfl, rfl, ?_⟩
    have hlow := low_toNat carry
    simp only [val, UInt32.zero_add]
    omega
  | cons y ys ih =>
    cases lo with
    | nil => cases hlen
    | cons p lo =>
      have hx := x.toNat_lt
      have hy := y.toNat_lt
      have hp := p.toNat_lt
      rw [cons_append]
      unfold mulRow
      extract_lets t
      have ht : t.toNat = x.toNat * y.toNat + p.toNat + carry.toNat := muladd_toNat x y p hc
      have hlow := low_toNat t
      have hhigh := high_toNat t
      have htlt := t.toNat_lt
      obtain ⟨l, hl, hlen', hval⟩ := @ih lo (t >>> 32) (Nat.succ.inj hlen) (by omega)
      refine ⟨t.toUInt32 :: l, by rw [hl]; rfl, by rw [length_cons, hlen']; rfl, ?_⟩
      have hdist : x.toNat * (y.toNat + 2 ^ 32 * val ys) =
          x.toNat * y.toNat + 2 ^ 32 * (x.toNat * val ys) := by ring
      rw [val_cons, val_cons, val_cons, hdist]
      omega

theorem mulRows_spec {xs ys lo : List UInt32} (hlen : lo.length = ys.length) :
    val (mulRows xs ys (lo ++ replicate xs.length 0)) = val lo + val xs * val ys ∧
      (mulRows xs ys (lo ++ replicate xs.length 0)).length = ys.length + xs.length := by
  induction xs generalizing lo with
  | nil => simp [mulRows, val, hlen]
  | cons x xs ih =>
    rw [length_cons, List.replicate_succ]
    obtain ⟨l, hl, hlen', hval⟩ := @mulRow_spec x _ _ 0 (replicate xs.length 0) hlen (by decide)
    cases l with
    | nil => cases hlen'
    | cons q qs =>
      obtain ⟨hrest, hlast⟩ := @ih qs (Nat.succ.inj hlen')
      unfold mulRows
      rw [hl, cons_append]
      refine ⟨?_, by rw [length_cons, hlast]; rfl⟩
      have hzero : (0 : UInt64).toNat = 0 := rfl
      have hdist : (x.toNat + 2 ^ 32 * val xs) * val ys =
          x.toNat * val ys + 2 ^ 32 * (val xs * val ys) := by ring
      rw [val_cons] at hval
      rw [val_cons, val_cons, hrest, hdist]
      omega

/-- The product of two numbers of `n` limbs. -/
def product {n : Nat} (a b : Words n) : Words (n + n) :=
  ⟨mulRows a.1 b.1 (replicate (n + n) 0), by
    have h := (@mulRows_spec a.1 b.1 (replicate n 0) (by rw [List.length_replicate, b.2])).2
    rw [a.2, b.2, List.replicate_append_replicate] at h
    exact h⟩

variable {n : Nat}

theorem val_product (a b : Words n) : val (product a b).1 = val a.1 * val b.1 := by
  have h := (@mulRows_spec a.1 b.1 (replicate n 0) (by rw [List.length_replicate, b.2])).1
  rw [a.2, List.replicate_append_replicate, val_zeros, Nat.zero_add] at h
  exact h

/-! ## The remainder, bit by bit -/

/-- Every limb doubled, with the bit that goes over into the next one. -/
def double : List UInt32 → UInt32 → List UInt32
  | [], _ => []
  | x :: xs, carry =>
    let t := (x.toUInt64 <<< 1) ||| carry.toUInt64
    t.toUInt32 :: double xs (t >>> 32).toUInt32

theorem double_toNat (x : UInt32) {carry : UInt32} (hc : carry.toNat ≤ 1) :
    ((x.toUInt64 <<< 1) ||| carry.toUInt64).toNat = 2 * x.toNat + carry.toNat := by
  have hx := x.toNat_lt
  have h1 : (1 : UInt64).toNat % 64 = 1 := rfl
  have hor := Nat.shiftLeft_add_eq_or_of_lt (i := 1) (b := carry.toNat) (by omega) x.toNat
  rw [UInt64.toNat_or, UInt64.toNat_shiftLeft, toNat_toUInt64, toNat_toUInt64, h1, mod_eq_of_lt]
  · rw [← hor, Nat.shiftLeft_eq]
    omega
  · rw [Nat.shiftLeft_eq]
    omega

theorem double_spec {xs : List UInt32} {carry : UInt32} (hc : carry.toNat ≤ 1)
    (hfit : 2 * val xs + carry.toNat < 2 ^ (32 * xs.length)) :
    val (double xs carry) = 2 * val xs + carry.toNat := by
  induction xs generalizing carry with
  | nil =>
    simp only [val, List.length_nil, mul_zero, pow_zero] at hfit
    have hzero : carry.toNat = 0 := by omega
    exact hzero ▸ rfl
  | cons x xs ih =>
    have hx := x.toNat_lt
    rw [length_cons, pow_step, val_cons] at hfit
    unfold double
    extract_lets t
    have ht : t.toNat = 2 * x.toNat + carry.toNat := double_toNat x hc
    have hlow := low_toNat t
    have hhigh := high_toNat t
    have hcarry := low_toNat (t >>> 32)
    rw [val_cons, ih (by omega) (by omega), val_cons]
    omega

theorem length_double (xs : List UInt32) (carry : UInt32) :
    (double xs carry).length = xs.length := by
  induction xs generalizing carry with
  | nil => rfl
  | cons x xs ih =>
    unfold double
    rw [length_cons, ih, length_cons]

/-- `r = (r << 1) | bit`. -/
def shiftIn {n : Nat} (r : Words n) (b : UInt32) : Words n :=
  ⟨(double r.1 0).modifyHead (· ||| b), by
    rw [List.length_modifyHead, length_double, r.2]⟩

theorem val_shiftIn (r : Words n) {b : UInt32} (hb : b.toNat ≤ 1)
    (hfit : 2 * val r.1 + 1 < 2 ^ (32 * n)) : val (shiftIn r b).1 = 2 * val r.1 + b.toNat := by
  have hzero : (0 : UInt32).toNat = 0 := rfl
  have hval := @double_spec r.1 0 (by decide) (by rw [r.2]; omega)
  have hlen := length_double r.1 0
  unfold shiftIn
  dsimp only
  cases hd : double r.1 0 with
  | nil =>
    rw [hd, r.2] at hlen
    obtain rfl : n = 0 := hlen.symm
    simp at hfit
  | cons y ys =>
    -- the lowest bit of a doubled number is free
    rw [hd, val_cons] at hval
    have hor := Nat.shiftLeft_add_eq_or_of_lt (i := 1) (b := b.toNat) (by omega) (y.toNat / 2)
    have hsum : (y ||| b).toNat = y.toNat + b.toNat := by
      have heven : (y.toNat / 2) <<< 1 = y.toNat := by
        rw [Nat.shiftLeft_eq]
        omega
      rw [heven] at hor
      rw [UInt32.toNat_or, ← hor]
    rw [List.modifyHead_cons, val_cons, hsum]
    omega

theorem split_top (r : Words (n + 1)) :
    r.1 = r.1.take n ++ [r.1.getD n 0] ∧ (r.1.take n).length = n := by
  obtain ⟨l, hl⟩ := r
  dsimp only
  have hn : n < l.length := by omega
  refine ⟨?_, by rw [List.length_take]; omega⟩
  have hget : l.getD n 0 = l[n] := by simp [hn]
  rw [hget, List.take_append_getElem, List.take_of_length_le (by omega)]

theorem val_split_top (r : Words (n + 1)) :
    val r.1 = val (r.1.take n) + 2 ^ (32 * n) * (r.1.getD n 0).toNat := by
  obtain ⟨hr, hlen⟩ := split_top r
  have h := val_append (r.1.take n) [r.1.getD n 0]
  rw [← hr, hlen, val_cons] at h
  simpa only [val, mul_zero, Nat.add_zero] using h

/-- The loop over the lower limbs. -/
theorem difference_spec (r : Words (n + 1)) (m : Words n) : val (subtract r.1 m.1 0).1 + val m.1 =
        val (r.1.take n) + 2 ^ (32 * n) * (subtract r.1 m.1 0).2 ∧
      (subtract r.1 m.1 0).2 ≤ 1 ∧ (subtract r.1 m.1 0).1.length = n := by
  obtain ⟨hr, hlen⟩ := split_top r
  have hlo := hlen.trans m.2.symm
  have hsub := subtract_append (r.1.take n) [r.1.getD n 0] m.1 0 hlo
  rw [← hr] at hsub
  have h := @subtract_spec _ _ 0 hlo (by decide)
  rwa [hlen, Nat.add_zero, ← hsub] at h

/-- The number without `m`, if it is not below `m`. -/
def reduceOnce {n : Nat} (r : Words (n + 1)) (m : Words n) : Words (n + 1) :=
  let d := subtract r.1 m.1 0
  let top : Int := ((r.1.getD n 0).toNat : Int) - d.2
  if top < 0 then r
  else ⟨d.1 ++ [ofNat top.toNat], by
    rw [List.length_append, (difference_spec r m).2.2]
    rfl⟩

theorem val_reduceOnce (r : Words (n + 1)) (m : Words n) :
    val (reduceOnce r m).1 = if val r.1 < val m.1 then val r.1 else val r.1 - val m.1 := by
  obtain ⟨hval, hle, hl⟩ := difference_spec r m
  have hm := val_lt m.1
  have hdiff := val_lt (subtract r.1 m.1 0).1
  have hr := val_split_top r
  have htop := (r.1.getD n 0).toNat_lt
  rw [hl] at hdiff
  rw [m.2] at hm
  unfold reduceOnce
  extract_lets d top
  change val d.1 + _ = _ + _ * d.2 at hval
  change d.2 ≤ 1 at hle
  change d.1.length = n at hl
  change val d.1 < _ at hdiff
  have htopdef : top = ((r.1.getD n 0).toNat : Int) - d.2 := rfl
  by_cases ht : top < 0
  · -- a borrow out of the top limb: that limb is zero
    have hz : (r.1.getD n 0).toNat = 0 := by omega
    have hb : d.2 = 1 := by omega
    rw [hz] at hr
    rw [hb] at hval
    rw [if_pos ht, if_pos (by omega)]
  · obtain ⟨k, hk⟩ : ∃ k : Nat, (r.1.getD n 0).toNat = k + d.2 := ⟨top.toNat, by omega⟩
    have hdig : (ofNat top.toNat).toNat = k := by
      rw [toNat_ofNat']
      omega
    rw [hk, Nat.mul_add] at hr
    rw [if_neg ht, if_neg (by omega)]
    dsimp only
    rw [val_append, val_cons, hdig, hl]
    simp only [val, mul_zero, Nat.add_zero]
    omega

theorem val_reduceOnce_mod {r : Words (n + 1)} {m : Words n}
    (h : val r.1 < 2 * val m.1) : val (reduceOnce r m).1 = val r.1 % val m.1 := by
  rw [val_reduceOnce]
  split
  · rename_i hlt
    exact (mod_eq_of_lt hlt).symm
  · rw [Nat.mod_eq_sub_mod (by omega), mod_eq_of_lt (by omega)]

/-- The remainder of the `j` highest of `k` bits. -/
def remainder {n : Nat} (m : Words n) (b : Nat → UInt32) (k : Nat) : Nat → Words (n + 1)
  | 0 => ⟨replicate (n + 1) 0, List.length_replicate⟩
  | j + 1 => reduceOnce (shiftIn (remainder m b k j) (b (k - 1 - j))) m

theorem val_remainder {N k : Nat} {m : Words n} {b : Nat → UInt32} (hm : 0 < val m.1)
    (hN : N < 2 ^ k) (hb : ∀ i < k, (b i).toNat = N / 2 ^ i % 2) {j : Nat} (hj : j ≤ k) :
    val (remainder m b k j).1 = N / 2 ^ (k - j) % val m.1 := by
  induction j with
  | zero =>
    unfold remainder
    rw [Nat.sub_zero, Nat.div_eq_of_lt hN, Nat.zero_mod]
    exact val_zeros (n + 1)
  | succ j ih =>
    have ih := ih (by omega)
    have hbit := hb (k - 1 - j) (by omega)
    have hmlt := val_lt m.1
    have hr := mod_lt (N / 2 ^ (k - j)) hm
    rw [← ih] at hr
    rw [m.2] at hmlt
    have hstep : N / 2 ^ (k - (j + 1)) = 2 * (N / 2 ^ (k - j)) + N / 2 ^ (k - 1 - j) % 2 := by
      have hpow : 2 ^ (k - j) = 2 ^ (k - 1 - j) * 2 := by
        rw [← Nat.pow_succ]
        congr 1
        omega
      have hsub : k - (j + 1) = k - 1 - j := by omega
      rw [hsub, hpow, ← Nat.div_div_eq_div_mul]
      omega
    have hfit : 2 * val (remainder m b k j).1 + 1 < 2 ^ (32 * (n + 1)) := by
      rw [pow_step]
      omega
    have hshift := val_shiftIn (remainder m b k j) (b := b (k - 1 - j)) (by omega) hfit
    have hred := val_reduceOnce_mod (r := shiftIn (remainder m b k j) (b (k - 1 - j))) (m := m)
      (by omega)
    unfold remainder
    rw [hred, hshift, hbit, hstep, ih, Nat.add_mod, Nat.mul_mod_mod, ← Nat.add_mod]

/-- The lower limbs. -/
def truncate {n : Nat} (r : Words (n + 1)) : Words n :=
  ⟨r.1.take n, by rw [List.length_take, r.2]; omega⟩

theorem val_truncate {r : Words (n + 1)} (h : val r.1 < 2 ^ (32 * n)) :
    val (truncate r).1 = val r.1 := by
  have hr := val_split_top r
  have htop : (r.1.getD n 0).toNat = 0 := by
    by_contra hne
    have hle : 2 ^ (32 * n) * 1 ≤ 2 ^ (32 * n) * (r.1.getD n 0).toNat :=
      Nat.mul_le_mul_left _ (by omega)
    omega
  rw [htop] at hr
  exact hr.symm

/-! ## Bytes -/

/-- Four bytes a limb. -/
def unpack : List UInt8 → List UInt32
  | a :: b :: c :: e :: rest => ofNat (ofLe [a, b, c, e]) :: unpack rest
  | _ => []

def pack : List UInt32 → List UInt8
  | [] => []
  | x :: xs => Bytes.le 4 x.toNat ++ pack xs

theorem four_bytes : 256 ^ 4 = 2 ^ 32 := by norm_num

theorem unpack_spec {n : Nat} {bs : List UInt8} (h : bs.length = 4 * n) :
    val (unpack bs) = ofLe bs ∧ (unpack bs).length = n := by
  induction n generalizing bs with
  | zero =>
    obtain rfl := eq_nil_of_length_eq_zero h
    exact ⟨rfl, rfl⟩
  | succ n ih =>
    match bs with
    | [] => simp at h
    | [_] => simp at h; omega
    | [_, _] => simp at h; omega
    | [_, _, _] => simp at h; omega
    | a :: b :: c :: e :: rest =>
      obtain ⟨hval, hlen⟩ := @ih rest (by simp only [length_cons] at h; omega)
      have hfour : [a, b, c, e].length = 4 := rfl
      have hlt := Bytes.ofLe_lt [a, b, c, e]
      have happ := Bytes.ofLe_append [a, b, c, e] rest
      rw [hfour, four_bytes] at hlt happ
      refine ⟨?_, by rw [unpack, length_cons, hlen]⟩
      change _ = ofLe ([a, b, c, e] ++ rest)
      rw [unpack, val_cons, hval, happ, toNat_ofNat', mod_eq_of_lt hlt]

theorem length_pack (xs : List UInt32) : (pack xs).length = 4 * xs.length := by
  induction xs with
  | nil => rfl
  | cons x xs ih =>
    rw [pack, List.length_append, length_le, ih, length_cons]
    omega

theorem ofLe_pack (xs : List UInt32) : ofLe (pack xs) = val xs := by
  induction xs with
  | nil => rfl
  | cons x xs ih =>
    rw [pack, Bytes.ofLe_append, Bytes.ofLe_le, length_le, ih, val_cons, four_bytes,
      mod_eq_of_lt x.toNat_lt]

theorem pack_eq (xs : List UInt32) : pack xs = Bytes.le (4 * xs.length) (val xs) := by
  rw [← ofLe_pack, ← length_pack, Bytes.le_ofLe]

end Limbs
