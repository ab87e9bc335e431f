-- Arithmetic of P-256 in eight limbs of 32 bits, modulo the prime of the field and modulo
-- the order of the group.
import PaideiaAs.Crypto.FieldBytes

namespace paideia_as_crypto.ecdsa_p256

open Bytes Limbs

open paideia_as_crypto.curve (Bytes32)
open Nat (mod_eq_of_lt mod_lt zero_lt_of_lt)

/-! ## Constants -/

/-- `p = 2^256 - 2^224 + 2^192 + 2^96 - 1`. -/
def P : Words 8 :=
  ⟨[0xFFFFFFFF, 0xFFFFFFFF, 0xFFFFFFFF, 0x00000000,
    0x00000000, 0x00000000, 0x00000001, 0xFFFFFFFF], rfl⟩

/-- The order `n` of the group. -/
def N : Words 8 :=
  ⟨[0xFC632551, 0xF3B9CAC2, 0xA7179E84, 0xBCE6FAAD,
    0xFFFFFFFF, 0xFFFFFFFF, 0x00000000, 0xFFFFFFFF], rfl⟩

def P_MINUS_2 : Words 8 :=
  ⟨[0xFFFFFFFD, 0xFFFFFFFF, 0xFFFFFFFF, 0x00000000,
    0x00000000, 0x00000000, 0x00000001, 0xFFFFFFFF], rfl⟩

def N_MINUS_2 : Words 8 :=
  ⟨[0xFC63254F, 0xF3B9CAC2, 0xA7179E84, 0xBCE6FAAD,
    0xFFFFFFFF, 0xFFFFFFFF, 0x00000000, 0xFFFFFFFF], rfl⟩

def ZERO_LIMBS : Words 8 := ⟨[0, 0, 0, 0, 0, 0, 0, 0], rfl⟩

def ONE_LIMBS : Words 8 := ⟨[1, 0, 0, 0, 0, 0, 0, 0], rfl⟩

/-! ## The functions -/

/-- Limb `i` is the four bytes that end before `32 - 4 * i`, the first one the highest. -/
def bytes_be_to_limbs (b : Bytes32) : Words 8 :=
  ⟨unpack b.1.reverse, (unpack_spec (n := 8) (b.1.length_reverse.trans b.2)).2⟩

def limbs_to_bytes_be (l : Words 8) : Bytes32 :=
  ⟨(pack l.1).reverse, by rw [List.length_reverse, length_pack, l.2]⟩

def limb (a : Words 8) (i : Nat) : UInt32 := a.1.getD i 0

/-- -1, 0 or 1, from the highest limb down. -/
def cmp_limbs (a b : Words 8) : Int :=
  match compareDown (fun i => (limb a i).toNat) (fun i => (limb b i).toNat) 8 with
  | .lt => -1
  | .eq => 0
  | .gt => 1

def is_zero_limbs (a : Words 8) : Bool := a.1.foldl (fun acc x => acc ||| x) 0 == 0

def eq_limbs (a b : Words 8) : Bool :=
  (a.1.zip b.1).foldl (fun acc p => acc ||| (p.1 ^^^ p.2)) 0 == 0

/-- `r` without `m`, unless it is below `m`. -/
def conditional_sub_modulus (r : Words 9) (m : Words 8) : Words 9 := reduceOnce r m

theorem length_sum (a b : Words 8) : (add a.1 b.1 0).1.length = 8 :=
  (add_spec (a.2.trans b.2.symm) (by decide)).2.2.trans a.2

theorem length_difference (a b : Words 8) : (subtract a.1 b.1 0).1.length = 8 :=
  (subtract_spec (a.2.trans b.2.symm) (by decide)).2.2.trans a.2

def add_mod (a b m : Words 8) : Words 8 :=
  let sum := add a.1 b.1 0
  truncate (conditional_sub_modulus
    ⟨sum.1 ++ [sum.2.toUInt32], by rw [List.length_append, length_sum]; rfl⟩ m)

def sub_mod (a b m : Words 8) : Words 8 :=
  let diff : Words 8 := ⟨(subtract a.1 b.1 0).1, length_difference a b⟩
  if (subtract a.1 b.1 0).2 ≠ 0 then ⟨(add diff.1 m.1 0).1, length_sum diff m⟩ else diff

/-- The accumulator after `i` turns, which begin with bit 511. -/
def reduce_loop (wide : Words 16) (m : Words 8) : Nat → Words 9
  | 0 => ⟨List.replicate 9 0, rfl⟩
  | i + 1 => conditional_sub_modulus (shiftIn (reduce_loop wide m i) (bit wide.1 (511 - i))) m

def reduce_wide (wide : Words 16) (m : Words 8) : Words 8 := truncate (reduce_loop wide m 512)

def mul_mod (a b m : Words 8) : Words 8 := reduce_wide (product a b) m

/-- The result after `i` turns, which begin with bit 255 of the exponent. -/
def pow_loop (a e m : Words 8) : Nat → Words 8
  | 0 => ONE_LIMBS
  | i + 1 =>
    let result := mul_mod (pow_loop a e m i) (pow_loop a e m i) m
    if bit e.1 (255 - i) == 1 then mul_mod result a m else result

def pow_mod (a e m : Words 8) : Words 8 := pow_loop a e m 256

def inv_p (a : Words 8) : Words 8 := pow_mod a P_MINUS_2 P

def inv_n (a : Words 8) : Words 8 := pow_mod a N_MINUS_2 N

/-! ## Bytes and comparisons -/

/-- The number that big-endian bytes stand for. -/
def ofBe (b : Bytes32) : Nat := ofLe b.1.reverse

theorem val_bytes_be_to_limbs (b : Bytes32) : val (bytes_be_to_limbs b).1 = ofBe b :=
  (unpack_spec (n := 8) (b.1.length_reverse.trans b.2)).1

theorem val_lt_256 (a : Words 8) : val a.1 < 2 ^ 256 := by
  have h := val_lt a.1
  rwa [a.2] at h

theorem bytes_of_limbs (l : Words 8) : bytes_be_to_limbs (limbs_to_bytes_be l) = l := by
  have h := @unpack_spec 8 (pack l.1) (by rw [length_pack, l.2])
  rw [ofLe_pack] at h
  unfold bytes_be_to_limbs limbs_to_bytes_be
  apply Subtype.ext
  dsimp only
  rw [List.reverse_reverse]
  exact val_inj (h.2.trans l.2.symm) h.1

theorem words_ext {a b : Words 8} (h : val a.1 = val b.1) : a = b :=
  Subtype.ext (val_inj (a.2.trans b.2.symm) h)

theorem cmp_limbs_spec (a b : Words 8) :
    (cmp_limbs a b < 0 ↔ val a.1 < val b.1) ∧ (cmp_limbs a b ≥ 0 ↔ val b.1 ≤ val a.1) := by
  have hdigit : ∀ (c : Words 8) (i : Nat), (limb c i).toNat = val c.1 / (2 ^ 32) ^ i % 2 ^ 32 := by
    intro c i
    unfold limb
    rw [getD_toNat, Nat.pow_mul]
  have hpow : (2 ^ 32) ^ 8 = 2 ^ 256 := by norm_num
  unfold cmp_limbs
  rw [compareDown_eq (by decide) (hdigit a) (hdigit b), hpow, mod_eq_of_lt (val_lt_256 a),
    mod_eq_of_lt (val_lt_256 b)]
  rcases Nat.lt_trichotomy (val a.1) (val b.1) with h | h | h
  · rw [Nat.compare_eq_lt.2 h]
    simp only
    omega
  · rw [Nat.compare_eq_eq.2 h]
    simp only
    omega
  · rw [Nat.compare_eq_gt.2 h]
    simp only
    omega

theorem is_zero_limbs_iff (a : Words 8) : is_zero_limbs a = true ↔ val a.1 = 0 := by
  have hfold : ∀ (l : List UInt32) (acc : UInt32),
      l.foldl (fun acc x => acc ||| x) acc = 0 ↔ acc = 0 ∧ val l = 0 := by
    intro l
    induction l with
    | nil =>
      intro acc
      simp [val]
    | cons x l ih =>
      intro acc
      have hx : x = 0 ↔ x.toNat = 0 := by rw [← UInt32.toNat_inj]; rfl
      have hsum : x.toNat = 0 ∧ val l = 0 ↔ x.toNat + 2 ^ 32 * val l = 0 := by omega
      rw [List.foldl_cons, ih, UInt32.or_eq_zero_iff, hx, val_cons, and_assoc, hsum]
  unfold is_zero_limbs
  rw [beq_iff_eq, hfold]
  exact and_iff_right rfl

theorem eq_limbs_iff (a b : Words 8) : eq_limbs a b = true ↔ a = b := by
  have hfold : ∀ (l k : List UInt32) (acc : UInt32), l.length = k.length →
      ((l.zip k).foldl (fun acc p => acc ||| (p.1 ^^^ p.2)) acc = 0 ↔ acc = 0 ∧ l = k) := by
    intro l
    induction l with
    | nil =>
      intro k acc hlen
      have hk : k = [] := List.eq_nil_of_length_eq_zero hlen.symm
      simp [hk]
    | cons x l ih =>
      intro k acc hlen
      cases k with
      | nil => cases hlen
      | cons y k =>
        rw [List.zip_cons_cons, List.foldl_cons, ih k _ (Nat.succ.inj hlen),
          UInt32.or_eq_zero_iff, UInt32.xor_eq_zero_iff, List.cons.injEq, and_assoc]
  unfold eq_limbs
  rw [beq_iff_eq, hfold _ _ _ (a.2.trans b.2.symm), Subtype.ext_iff]
  exact and_iff_right rfl

/-! ## Residues -/

/-- The limbs hold the residue `v`, in its number below the modulus. -/
structure Holds (m : Words 8) (v : ZMod (val m.1)) (a : Words 8) : Prop where
  below : val a.1 < val m.1
  value : (val a.1 : ZMod (val m.1)) = v

variable {m : Words 8} {v w : ZMod (val m.1)} {a b : Words 8}

theorem holds_of_mod (hm : 0 < val m.1) {n : Nat} (h : val a.1 = n % val m.1)
    (hn : (n : ZMod (val m.1)) = v) : Holds m v a := by
  refine ⟨?_, ?_⟩
  · rw [h]
    exact mod_lt _ hm
  · rw [h, ZMod.natCast_mod, hn]

/-- The limbs are determined by the residue. -/
theorem Holds.unique (ha : Holds m v a) (hb : Holds m v b) : a = b := by
  apply words_ext
  have h := ha.value.trans hb.value.symm
  rwa [ZMod.natCast_eq_natCast_iff', mod_eq_of_lt ha.below, mod_eq_of_lt hb.below] at h

theorem Holds.eq_iff (ha : Holds m v a) (hb : Holds m w b) : a = b ↔ v = w := by
  refine ⟨?_, ?_⟩
  · rintro rfl
    exact ha.value.symm.trans hb.value
  · rintro rfl
    exact ha.unique hb

theorem Holds.eq_limbs (ha : Holds m v a) (hb : Holds m w b) :
    eq_limbs a b = true ↔ v = w := (eq_limbs_iff a b).trans (ha.eq_iff hb)

theorem Holds.is_zero (ha : Holds m v a) : is_zero_limbs a = true ↔ v = 0 := by
  rw [is_zero_limbs_iff]
  refine ⟨?_, ?_⟩
  · intro h
    rw [← ha.value, h, Nat.cast_zero]
  · rintro rfl
    have h := ha.value
    rw [ZMod.natCast_eq_zero_iff] at h
    exact Nat.eq_zero_of_dvd_of_lt h ha.below

theorem val_add_mod (ha : val a.1 < val m.1) (hb : val b.1 < val m.1) :
    val (add_mod a b m).1 = (val a.1 + val b.1) % val m.1 := by
  obtain ⟨hsum, hcarry, -⟩ := @add_spec _ _ 0 (a.2.trans b.2.symm) (by decide)
  have hzero : (0 : UInt64).toNat = 0 := rfl
  have hm := val_lt_256 m
  have hlow := low_toNat (add a.1 b.1 0).2
  have hr : val ((add a.1 b.1 0).1 ++ [(add a.1 b.1 0).2.toUInt32]) = val a.1 + val b.1 := by
    rw [val_append, val_cons, length_sum, hlow]
    rw [a.2] at hsum
    simp only [val]
    omega
  unfold add_mod conditional_sub_modulus
  dsimp only
  have hmod := val_reduceOnce_mod (m := m)
    (r := ⟨(add a.1 b.1 0).1 ++ [(add a.1 b.1 0).2.toUInt32], by
      rw [List.length_append, length_sum]; rfl⟩) (by dsimp only; omega)
  dsimp only at hmod
  rw [hr] at hmod
  have hlt := mod_lt (val a.1 + val b.1) (zero_lt_of_lt ha)
  rw [val_truncate (by omega), hmod]

theorem holds_add (ha : Holds m v a) (hb : Holds m w b) : Holds m (v + w) (add_mod a b m) := by
  apply holds_of_mod (zero_lt_of_lt ha.below) (val_add_mod ha.below hb.below)
  rw [Nat.cast_add, ha.value, hb.value]

theorem val_sub_mod (ha : val a.1 < val m.1) (hb : val b.1 < val m.1) :
    val (sub_mod a b m).1 = (val a.1 + (val m.1 - val b.1)) % val m.1 := by
  obtain ⟨hdiff, hborrow, hlen⟩ := @subtract_spec _ _ 0 (a.2.trans b.2.symm) (by decide)
  have hm := val_lt_256 m
  rw [a.2] at hdiff hlen
  have hlt := val_lt (subtract a.1 b.1 0).1
  rw [hlen] at hlt
  unfold sub_mod
  dsimp only
  by_cases hb0 : (subtract a.1 b.1 0).2 = 0
  · rw [hb0] at hdiff
    rw [if_neg (not_not_intro hb0), Nat.mod_eq_sub_mod (by omega), mod_eq_of_lt (by omega)]
    dsimp only
    omega
  · -- the carry out of the sum is the borrow
    obtain ⟨hsum, hcarry, hlen'⟩ := @add_spec _ _ 0 (hlen.trans m.2.symm) (by decide)
    have hzero : (0 : UInt64).toNat = 0 := rfl
    have hb1 : (subtract a.1 b.1 0).2 = 1 := by omega
    have hlt' := val_lt (add (subtract a.1 b.1 0).1 m.1 0).1
    rw [hlen', hlen] at hlt'
    rw [hlen] at hsum
    rw [hb1] at hdiff
    rw [if_pos hb0, mod_eq_of_lt (by omega)]
    dsimp only
    omega

theorem holds_sub (ha : Holds m v a) (hb : Holds m w b) : Holds m (v - w) (sub_mod a b m) := by
  apply holds_of_mod (zero_lt_of_lt ha.below) (val_sub_mod ha.below hb.below)
  rw [Nat.cast_add, Nat.cast_sub hb.below.le, ZMod.natCast_self, ha.value, hb.value, zero_sub,
    sub_eq_add_neg]

theorem reduce_loop_eq (wide : Words 16) (m : Words 8) (i : Nat) :
    reduce_loop wide m i = remainder m (bit wide.1) 512 i := by
  induction i with
  | zero => rfl
  | succ i ih =>
    unfold reduce_loop remainder
    rw [ih]
    rfl

theorem val_reduce_wide (hm : 0 < val m.1) (wide : Words 16) :
    val (reduce_wide wide m).1 = val wide.1 % val m.1 := by
  have hlt := val_lt wide.1
  have hm256 := val_lt_256 m
  have hmod := mod_lt (val wide.1) hm
  rw [wide.2] at hlt
  have hrem := val_remainder hm hlt (fun i _ => bit_toNat wide.1 i) (le_refl 512)
  rw [Nat.sub_self, pow_zero, Nat.div_one, ← reduce_loop_eq] at hrem
  unfold reduce_wide
  rw [val_truncate (by omega), hrem]

theorem val_mul_mod (hm : 0 < val m.1) (a b : Words 8) :
    val (mul_mod a b m).1 = val a.1 * val b.1 % val m.1 := by
  unfold mul_mod
  rw [val_reduce_wide hm, val_product]

theorem holds_mul (ha : Holds m v a) (hb : Holds m w b) : Holds m (v * w) (mul_mod a b m) := by
  apply holds_of_mod (zero_lt_of_lt ha.below) (val_mul_mod (zero_lt_of_lt ha.below) a b)
  rw [Nat.cast_mul, ha.value, hb.value]

theorem holds_one (hm : 1 < val m.1) : Holds m 1 ONE_LIMBS := by
  have hone : val ONE_LIMBS.1 = 1 := by decide
  refine ⟨hone ▸ hm, ?_⟩
  rw [hone, Nat.cast_one]

theorem holds_zero (hm : 1 < val m.1) : Holds m 0 ZERO_LIMBS := by
  have hzero : val ZERO_LIMBS.1 = 0 := by decide
  refine ⟨by omega, ?_⟩
  rw [hzero, Nat.cast_zero]

/-- A prefix of a number of 256 bits grows by its next bit. -/
theorem prefix_succ (n : Nat) {i : Nat} (hi : i < 256) : n / 2 ^ (256 - (i + 1)) =
      n / 2 ^ (256 - i) + n / 2 ^ (256 - i) + n / 2 ^ (255 - i) % 2 := by
  have hpow : 2 ^ (256 - i) = 2 ^ (255 - i) * 2 := by
    rw [← Nat.pow_succ]
    congr 1
    omega
  have hsub : 256 - (i + 1) = 255 - i := by omega
  rw [hsub, hpow, ← Nat.div_div_eq_div_mul]
  omega

theorem bit_cases (l : List UInt32) (i : Nat) :
    bit l i = 0 ∧ val l / 2 ^ i % 2 = 0 ∨ bit l i = 1 ∧ val l / 2 ^ i % 2 = 1 := by
  have h := bit_toNat l i
  rw [← UInt32.toNat_inj, ← UInt32.toNat_inj]
  change (bit l i).toNat = 0 ∧ _ ∨ (bit l i).toNat = 1 ∧ _
  omega

/-- The base need not be below the modulus: every product is reduced. -/
theorem pow_loop_spec (hm : 0 < val m.1) (a e : Words 8) {i : Nat} (hi : i ≤ 256) :
    val (pow_loop a e m i).1 ≡ val a.1 ^ (val e.1 / 2 ^ (256 - i)) [MOD val m.1] := by
  have hmul : ∀ a b, val (mul_mod a b m).1 ≡ val a.1 * val b.1 [MOD val m.1] := by
    intro a b
    rw [val_mul_mod hm]
    exact Nat.mod_modEq _ _
  induction i with
  | zero =>
    rw [Nat.sub_zero, Nat.div_eq_of_lt (val_lt_256 e), pow_zero]
    rfl
  | succ i ih =>
    have ih := ih (by omega)
    have hsq := (hmul (pow_loop a e m i) (pow_loop a e m i)).trans (ih.mul ih)
    rw [← pow_add] at hsq
    unfold pow_loop
    rw [prefix_succ _ hi]
    rcases bit_cases e.1 (255 - i) with ⟨hb, hv⟩ | ⟨hb, hv⟩
    · rw [hb, hv, if_neg (by decide)]
      exact hsq
    · rw [hb, hv, if_pos (by decide), pow_succ]
      exact (hmul _ a).trans (hsq.mul_right _)

theorem val_pow_mod (hm : 0 < val m.1) (a e : Words 8) :
    val (pow_mod a e m).1 = val a.1 ^ val e.1 % val m.1 := by
  have hspec := pow_loop_spec hm a e (le_refl 256)
  rw [Nat.sub_self, pow_zero, Nat.div_one] at hspec
  -- the last turn ends with a product
  have hlt : val (pow_mod a e m).1 < val m.1 := by
    unfold pow_mod pow_loop
    dsimp only
    split_ifs
    · rw [val_mul_mod hm]
      exact mod_lt _ hm
    · rw [val_mul_mod hm]
      exact mod_lt _ hm
  exact (mod_eq_of_lt hlt).symm.trans hspec

theorem holds_pow (hm : 1 < val m.1) (ha : Holds m v a) (e : Words 8) :
    Holds m (v ^ val e.1) (pow_mod a e m) := by
  apply holds_of_mod (by omega) (val_pow_mod (by omega) a e)
  rw [Nat.cast_pow, ha.value]

/-- For every modulus: sum and difference of canonical operands, and the remainder, the
product and the power of any. -/
theorem modular_arithmetic (m : Words 8) (hm : 0 < val m.1) :
    (∀ a b : Words 8, val a.1 < val m.1 → val b.1 < val m.1 →
      val (add_mod a b m).1 = (val a.1 + val b.1) % val m.1 ∧
        (val (sub_mod a b m).1 : Int) = ((val a.1 : Int) - val b.1) % val m.1) ∧
      (∀ wide : Words 16, val (reduce_wide wide m).1 = val wide.1 % val m.1) ∧
      (∀ a b : Words 8, val (mul_mod a b m).1 = val a.1 * val b.1 % val m.1) ∧
      ∀ a e : Words 8, val (pow_mod a e m).1 = val a.1 ^ val e.1 % val m.1 := by
  refine ⟨fun a b ha hb => ⟨val_add_mod ha hb, ?_⟩, val_reduce_wide hm, val_mul_mod hm,
    val_pow_mod hm⟩
  rw [val_sub_mod ha hb, Int.natCast_emod, Nat.cast_add, Nat.cast_sub hb.le, ← add_sub_assoc,
    add_sub_right_comm, Int.add_emod_right]

theorem two_minus_three_modulo_n :
    (val (sub_mod ⟨[2, 0, 0, 0, 0, 0, 0, 0], rfl⟩ ⟨[3, 0, 0, 0, 0, 0, 0, 0], rfl⟩ N).1 : Int) =
      (2 - 3) % val N.1 :=
  ((modular_arithmetic N (by decide)).1 _ _ (by decide) (by decide)).2

end paideia_as_crypto.ecdsa_p256
