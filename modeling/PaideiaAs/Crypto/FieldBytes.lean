-- Field elements as 32 bytes: what is decoded, and that the encoding is that of the
-- number below `p`. The conditional swap stands here as well: it records no call.
import PaideiaAs.Crypto.Field25519
import PaideiaAs.Lib.Limbs

namespace paideia_as_crypto.curve

open Blocks Bytes
open Nat (div_add_mod mod_eq_of_lt mod_lt)

abbrev Bytes32 : Type := Block UInt8 32

/-! ## Thirty-two bytes -/

def byte (k : Bytes32) (i : Nat) : UInt8 := k.1.getD i 0

def set_byte (k : Bytes32) (i : Nat) (v : UInt8) : Bytes32 :=
  ⟨k.1.set i v, by rw [List.length_set, k.2]⟩

/-- `(k[t / 8] >> (t & 7)) & 1`. -/
def scalar_bit (k : Bytes32) (t : Nat) : UInt64 :=
  ((byte k (t / 8) >>> UInt8.ofNat (t % 8)) &&& 1).toUInt64

variable (k : Bytes32)

theorem byte_toNat (i : Nat) : (byte k i).toNat = ofLe k.1 / 256 ^ i % 256 := ofLe_getD k.1 i

theorem ofLe_set_byte {i : Nat} (hi : i < 32) (v : UInt8) :
    ofLe (set_byte k i v).1 + 256 ^ i * (byte k i).toNat = ofLe k.1 + 256 ^ i * v.toNat :=
  ofLe_set k.1 (by rw [k.2]; exact hi) v

theorem byte_set_byte {i : Nat} (hi : i < 32) (v : UInt8) : byte (set_byte k i v) i = v := by
  have hlen := k.2
  unfold byte set_byte
  simp [hlen, hi]

theorem set_byte_set_byte (i : Nat) (v w : UInt8) :
    set_byte (set_byte k i v) i w = set_byte k i w := by
  apply Subtype.ext
  exact List.set_set ..

theorem ofLe_lt_256 : ofLe k.1 < 2 ^ 256 := by
  have h := ofLe_lt k.1
  rw [k.2] at h
  exact h

theorem le_ofLe_32 : le 32 (ofLe k.1) = k.1 := by
  have h := le_ofLe k.1
  rwa [k.2] at h

theorem bit_of_byte (n : Nat) {r : Nat} (hr : r < 8) : n % 256 / 2 ^ r % 2 = n / 2 ^ r % 2 := by
  have hpow : 256 = 2 ^ r * 2 ^ (8 - r) := by
    rw [← Nat.pow_add, Nat.add_sub_cancel' (by omega)]
  rw [hpow, Nat.mod_mul_right_div_self]
  exact Nat.mod_mod_of_dvd _ (dvd_pow_self 2 (by omega))

/-- A bit as a word. -/
def flag (b : Bool) : UInt64 := if b then 1 else 0

theorem flag_xor (b c : Bool) : flag b ^^^ flag c = flag (b ^^ c) := by
  cases b <;> cases c <;> rfl

theorem bit_of_bytes (bs : List UInt8) (t : Nat) :
    ((bs.getD (t / 8) 0 >>> UInt8.ofNat (t % 8)) &&& 1).toNat = ofLe bs / 2 ^ t % 2 := by
  have hbit : (256 : Nat) ^ (t / 8) * 2 ^ (t % 8) = 2 ^ t := by
    rw [show (256 : Nat) = 2 ^ 8 from rfl, ← Nat.pow_mul, ← Nat.pow_add]
    congr 1
    omega
  have h1 : (1 : UInt8).toNat = 1 := rfl
  rw [UInt8.toNat_and, UInt8.toNat_shiftRight, ofLe_getD, UInt8.toNat_ofNat',
    mod_eq_of_lt (b := 2 ^ 8) (by omega), Nat.mod_mod, Nat.shiftRight_eq_div_pow, h1,
    Nat.and_one_is_mod, bit_of_byte _ (by omega), Nat.div_div_eq_div_mul, hbit]

theorem scalar_bit_eq (t : Nat) : scalar_bit k t = flag ((ofLe k.1).testBit t) := by
  have hbits := Nat.toNat_testBit (ofLe k.1) t
  rw [← bit_of_bytes k.1 t] at hbits
  rw [← UInt64.toNat_inj]
  unfold scalar_bit byte
  rw [UInt8.toNat_toUInt64, ← hbits]
  cases (ofLe k.1).testBit t <;> rfl

namespace FieldElement

/-! ## Conditional swap -/

def cswap_limb (mask a b : UInt64) : UInt64 × UInt64 :=
  let t := mask &&& (a ^^^ b)
  (a ^^^ t, b ^^^ t)

def cswap (a b : FieldElement) (swap : UInt64) : FieldElement × FieldElement :=
  let mask := 0 - (swap &&& 1)
  let p0 := cswap_limb mask a.l0 b.l0
  let p1 := cswap_limb mask a.l1 b.l1
  let p2 := cswap_limb mask a.l2 b.l2
  let p3 := cswap_limb mask a.l3 b.l3
  let p4 := cswap_limb mask a.l4 b.l4
  (⟨p0.1, p1.1, p2.1, p3.1, p4.1⟩, ⟨p0.2, p1.2, p2.2, p3.2, p4.2⟩)

theorem cswap_zero (a b : FieldElement) : cswap a b 0 = (a, b) := by
  have hlimb : ∀ x y : UInt64, cswap_limb 0 x y = (x, y) := by
    intro x y
    simp [cswap_limb]
  unfold cswap
  rw [show (0 : UInt64) - (0 &&& 1) = 0 by decide]
  simp only [hlimb]

theorem cswap_one (a b : FieldElement) : cswap a b 1 = (b, a) := by
  have hlimb : ∀ x y : UInt64, cswap_limb (-1) x y = (y, x) := by
    intro x y
    simp only [cswap_limb]
    rw [UInt64.neg_one_and, ← UInt64.xor_assoc, UInt64.xor_self, UInt64.zero_xor, UInt64.xor_comm x y,
      ← UInt64.xor_assoc, UInt64.xor_self, UInt64.zero_xor]
  unfold cswap
  rw [show (0 : UInt64) - (1 &&& 1) = -1 by decide]
  simp only [hlimb]

theorem cswap_flag (a b : FieldElement) (c : Bool) :
    cswap a b (flag c) = if c then (b, a) else (a, b) := by
  cases c
  · exact cswap_zero a b
  · exact cswap_one a b

/-! ## Decoding -/

/-- Eight bytes from `i` on. -/
def load8 (bytes : Bytes32) (i : Nat) : UInt64 := UInt64.ofNat (ofLe ((bytes.1.drop i).take 8))

def from_bytes (bytes : Bytes32) : FieldElement :=
  ⟨load8 bytes 0 &&& LOW_51, (load8 bytes 6 >>> 3) &&& LOW_51, (load8 bytes 12 >>> 6) &&& LOW_51,
    (load8 bytes 19 >>> 1) &&& LOW_51, (load8 bytes 24 >>> 12) &&& LOW_51⟩

variable (bytes : Bytes32)

theorem load8_toNat {i : Nat} (hi : i + 8 ≤ 32) :
    (load8 bytes i).toNat = ofLe bytes.1 / 256 ^ i % 2 ^ 64 := by
  have hlen := bytes.2
  have htake := ofLe_take (bytes.1.drop i) (n := 8) (by rw [List.length_drop]; omega)
  unfold load8
  rw [UInt64.toNat_ofNat', htake, ofLe_drop _ (by omega)]
  norm_num

variable {s : UInt64} {k : Nat} {a : FieldElement}

/-- The limb that starts at bit `e`. -/
theorem limb_of_load {i : Nat} {e : Nat} (hi : i + 8 ≤ 32)
    (hs : s.toNat = k) (hk : k ≤ 13) (he : 8 * i + k = e) :
    (load8 bytes i >>> s &&& LOW_51).toNat = ofLe bytes.1 / 2 ^ e % 2 ^ 51 := by
  have hpow : (2 : Nat) ^ 64 = 2 ^ k * 2 ^ (64 - k) := by
    rw [← Nat.pow_add]
    congr 1
    omega
  have hbit : 256 ^ i * 2 ^ k = 2 ^ e := by
    rw [← he, Nat.pow_add, Nat.pow_mul]
  rw [and_low, UInt64.toNat_shiftRight, load8_toNat bytes hi, hs, mod_eq_of_lt (b := 64) (by omega),
    Nat.shiftRight_eq_div_pow, hpow, Nat.mod_mul_right_div_self, Nat.div_div_eq_div_mul, hbit]
  apply Nat.mod_mod_of_dvd
  exact Nat.pow_dvd_pow 2 (by omega)

theorem from_bytes_value : (from_bytes bytes).value = ofLe bytes.1 % 2 ^ 255 := by
  have h0 : (load8 bytes 0 &&& LOW_51).toNat = ofLe bytes.1 % 2 ^ 51 := by
    rw [and_low, load8_toNat bytes (by decide)]
    omega
  have h1 := limb_of_load bytes (i := 6) (s := 3) (by decide) rfl (by decide) rfl
  have h2 := limb_of_load bytes (i := 12) (s := 6) (by decide) rfl (by decide) rfl
  have h3 := limb_of_load bytes (i := 19) (s := 1) (by decide) rfl (by decide) rfl
  have h4 := limb_of_load bytes (i := 24) (s := 12) (by decide) rfl (by decide) rfl
  unfold value from_bytes
  simp only [h0, h1, h2, h3, h4]
  change _ + 2 ^ 51 * (_ / 2 ^ 51 % _) + 2 ^ 102 * (_ / 2 ^ 102 % _) +
    2 ^ 153 * (_ / 2 ^ 153 % _) + 2 ^ 204 * (_ / 2 ^ 204 % _) = _
  omega

theorem from_bytes_tight : Tight (from_bytes bytes) := by
  have hlow : ∀ x : UInt64, (x &&& LOW_51).toNat < 2 ^ 51 := by
    intro x
    rw [and_low]
    exact mod_lt _ (by decide)
  refine ⟨hlow _, Nat.lt_trans (hlow _) (by decide), hlow _, hlow _, hlow _⟩

/-! ## Encoding -/

def reduce (a : FieldElement) : FieldElement :=
  let carry := a.l0 >>> 51
  let r0 := a.l0 &&& LOW_51
  let r1 := a.l1 + carry
  let carry := r1 >>> 51
  let r1 := r1 &&& LOW_51
  let r2 := a.l2 + carry
  let carry := r2 >>> 51
  let r2 := r2 &&& LOW_51
  let r3 := a.l3 + carry
  let carry := r3 >>> 51
  let r3 := r3 &&& LOW_51
  let r4 := a.l4 + carry
  let carry := r4 >>> 51
  let r4 := r4 &&& LOW_51
  let r0 := r0 + carry * 19
  let carry := r0 >>> 51
  let r0 := r0 &&& LOW_51
  let r1 := r1 + carry
  ⟨r0, r1, r2, r3, r4⟩

/-- The limbs with `p` taken off when there is a `p` in them. -/
def subtract_p (l : FieldElement) : FieldElement :=
  let q := (l.l0 + 19) >>> 51
  let q := (l.l1 + q) >>> 51
  let q := (l.l2 + q) >>> 51
  let q := (l.l3 + q) >>> 51
  let q := (l.l4 + q) >>> 51
  let l0 := l.l0 + 19 * q
  let l1 := l.l1 + (l0 >>> 51)
  let l0 := l0 &&& LOW_51
  let l2 := l.l2 + (l1 >>> 51)
  let l1 := l1 &&& LOW_51
  let l3 := l.l3 + (l2 >>> 51)
  let l2 := l2 &&& LOW_51
  let l4 := l.l4 + (l3 >>> 51)
  let l3 := l3 &&& LOW_51
  let l4 := l4 &&& LOW_51
  ⟨l0, l1, l2, l3, l4⟩

/-- The 255 bits of five limbs, eight at a time. -/
def pack (l : FieldElement) : Bytes32 :=
  ⟨[l.l0.toUInt8, (l.l0 >>> 8).toUInt8, (l.l0 >>> 16).toUInt8, (l.l0 >>> 24).toUInt8,
    (l.l0 >>> 32).toUInt8, (l.l0 >>> 40).toUInt8, ((l.l0 >>> 48) ||| (l.l1 <<< 3)).toUInt8,
    (l.l1 >>> 5).toUInt8, (l.l1 >>> 13).toUInt8, (l.l1 >>> 21).toUInt8, (l.l1 >>> 29).toUInt8,
    (l.l1 >>> 37).toUInt8, ((l.l1 >>> 45) ||| (l.l2 <<< 6)).toUInt8, (l.l2 >>> 2).toUInt8,
    (l.l2 >>> 10).toUInt8, (l.l2 >>> 18).toUInt8, (l.l2 >>> 26).toUInt8, (l.l2 >>> 34).toUInt8,
    (l.l2 >>> 42).toUInt8, ((l.l2 >>> 50) ||| (l.l3 <<< 1)).toUInt8, (l.l3 >>> 7).toUInt8,
    (l.l3 >>> 15).toUInt8, (l.l3 >>> 23).toUInt8, (l.l3 >>> 31).toUInt8, (l.l3 >>> 39).toUInt8,
    ((l.l3 >>> 47) ||| (l.l4 <<< 4)).toUInt8, (l.l4 >>> 4).toUInt8, (l.l4 >>> 12).toUInt8,
    (l.l4 >>> 20).toUInt8, (l.l4 >>> 28).toUInt8, (l.l4 >>> 36).toUInt8,
    (l.l4 >>> 44).toUInt8], rfl⟩

def to_bytes (a : FieldElement) : Bytes32 := pack (subtract_p (reduce a))

theorem add_small {x y : UInt64} (hx : x.toNat ≤ 2 ^ 55) (hy : y.toNat ≤ 2 ^ 55) :
    (x + y).toNat = x.toNat + y.toNat := by
  rw [UInt64.toNat_add]
  exact mod_eq_of_lt (by omega)

theorem sum_shift {x y : UInt64} (hx : x.toNat ≤ 2 ^ 55) (hy : y.toNat ≤ 2 ^ 55) :
    ((x + y) >>> 51).toNat = (x.toNat + y.toNat) / 2 ^ 51 := by
  rw [shift_51, add_small hx hy]

theorem add_shift {x y : UInt64} (hx : x.toNat ≤ 2 ^ 55) :
    (x + y >>> 51).toNat = x.toNat + y.toNat / 2 ^ 51 := by
  have hy := y.toNat_lt
  rw [add_small hx (by rw [shift_51]; omega), shift_51]

/-- A carry pass keeps the element, and leaves at most one bit above in limb 1. -/
theorem reduce_spec (ha : Loose a) :
    (reduce a).val = a.val ∧ (reduce a).l0.toNat < 2 ^ 51 ∧ (reduce a).l1.toNat ≤ 2 ^ 51 ∧
      (reduce a).l2.toNat < 2 ^ 51 ∧ (reduce a).l3.toNat < 2 ^ 51 ∧
      (reduce a).l4.toNat < 2 ^ 51 := by
  obtain ⟨ha0, ha1, ha2, ha3, ha4⟩ := ha
  unfold reduce
  extract_lets k0 r0 s1 k1 r1 s2 k2 r2 s3 k3 r3 s4 k4 r4 w0 k5 w0' w1
  have e0 : k0.toNat = a.l0.toNat / 2 ^ 51 := shift_51 _
  have m0 : r0.toNat = a.l0.toNat % 2 ^ 51 := and_low _
  have n1 : s1.toNat = a.l1.toNat + k0.toNat := add_small (by omega) (by omega)
  have e1 : k1.toNat = s1.toNat / 2 ^ 51 := shift_51 _
  have m1 : r1.toNat = s1.toNat % 2 ^ 51 := and_low _
  have n2 : s2.toNat = a.l2.toNat + k1.toNat := add_small (by omega) (by omega)
  have e2 : k2.toNat = s2.toNat / 2 ^ 51 := shift_51 _
  have m2 : r2.toNat = s2.toNat % 2 ^ 51 := and_low _
  have n3 : s3.toNat = a.l3.toNat + k2.toNat := add_small (by omega) (by omega)
  have e3 : k3.toNat = s3.toNat / 2 ^ 51 := shift_51 _
  have m3 : r3.toNat = s3.toNat % 2 ^ 51 := and_low _
  have n4 : s4.toNat = a.l4.toNat + k3.toNat := add_small (by omega) (by omega)
  have e4 : k4.toNat = s4.toNat / 2 ^ 51 := shift_51 _
  have m4 : r4.toNat = s4.toNat % 2 ^ 51 := and_low _
  have h19 : (k4 * 19).toNat = k4.toNat * 19 := limb_mul (by omega) (by decide)
  have n0 : w0.toNat = r0.toNat + k4.toNat * 19 := by
    rw [← h19]
    exact add_small (by omega) (by omega)
  have e5 : k5.toNat = w0.toNat / 2 ^ 51 := shift_51 _
  have m5 : w0'.toNat = w0.toNat % 2 ^ 51 := and_low _
  have n5 : w1.toNat = r1.toNat + k5.toNat := add_small (by omega) (by omega)
  refine ⟨?_, by simp only; omega, by simp only; omega, by simp only; omega, by simp only; omega,
    by simp only; omega⟩
  apply val_of_value (k := k4.toNat)
  unfold value P
  simp only
  omega

theorem carry_chain {l0 l1 l2 l3 l4 q0 q1 q2 q3 q4 : Nat} (h0 : q0 = l0 / 2 ^ 51)
    (h1 : q1 = (l1 + q0) / 2 ^ 51) (h2 : q2 = (l2 + q1) / 2 ^ 51)
    (h3 : q3 = (l3 + q2) / 2 ^ 51) (h4 : q4 = (l4 + q3) / 2 ^ 51) :
    l0 + 2 ^ 51 * l1 + 2 ^ 102 * l2 + 2 ^ 153 * l3 + 2 ^ 204 * l4 =
      l0 % 2 ^ 51 + 2 ^ 51 * ((l1 + q0) % 2 ^ 51) + 2 ^ 102 * ((l2 + q1) % 2 ^ 51) +
        2 ^ 153 * ((l3 + q2) % 2 ^ 51) + 2 ^ 204 * ((l4 + q3) % 2 ^ 51) + 2 ^ 255 * q4 := by
  have d0 := div_add_mod l0 (2 ^ 51)
  have d1 := div_add_mod (l1 + q0) (2 ^ 51)
  have d2 := div_add_mod (l2 + q1) (2 ^ 51)
  have d3 := div_add_mod (l3 + q2) (2 ^ 51)
  have d4 := div_add_mod (l4 + q3) (2 ^ 51)
  rw [← h0] at d0
  rw [← h1] at d1
  rw [← h2] at d2
  rw [← h3] at d3
  rw [← h4] at d4
  generalize l0 % 2 ^ 51 = r0 at *
  generalize (l1 + q0) % 2 ^ 51 = r1 at *
  generalize (l2 + q1) % 2 ^ 51 = r2 at *
  generalize (l3 + q2) % 2 ^ 51 = r3 at *
  generalize (l4 + q3) % 2 ^ 51 = r4 at *
  clear h0 h1 h2 h3 h4
  omega

theorem limbs_lt {r0 r1 r2 r3 r4 : Nat} (h0 : r0 < 2 ^ 51) (h1 : r1 < 2 ^ 51) (h2 : r2 < 2 ^ 51)
    (h3 : r3 < 2 ^ 51) (h4 : r4 < 2 ^ 51) :
    r0 + 2 ^ 51 * r1 + 2 ^ 102 * r2 + 2 ^ 153 * r3 + 2 ^ 204 * r4 < 2 ^ 255 := by
  omega

/-- `q` tells whether `v` has a `p` in it; with 19 added for it, `z` is what is left below
bit 255. -/
theorem mod_p_of_carries {v z r q c : Nat} (hz : z < 2 ^ 255) (hr : r < 2 ^ 255)
    (hv : v < P + P) (hq : v + 19 = r + 2 ^ 255 * q) (hw : v + 19 * q = z + 2 ^ 255 * c) :
    z = v % P := by
  unfold P at *
  obtain rfl | rfl : q = 0 ∨ q = 1 := by omega
  · obtain rfl : c = 0 := by omega
    rw [mod_eq_of_lt (by omega)]
    omega
  · obtain rfl : c = 1 := by omega
    rw [Nat.mod_eq_sub_mod (by omega), mod_eq_of_lt (by omega)]
    omega

/-- The canonical limbs: the number below `p`. -/
theorem canonical_spec (ha : Loose a) : (subtract_p (reduce a)).value = a.val.val ∧
      (subtract_p (reduce a)).l0.toNat < 2 ^ 51 ∧ (subtract_p (reduce a)).l1.toNat < 2 ^ 51 ∧
      (subtract_p (reduce a)).l2.toNat < 2 ^ 51 ∧ (subtract_p (reduce a)).l3.toNat < 2 ^ 51 ∧
      (subtract_p (reduce a)).l4.toNat < 2 ^ 51 := by
  obtain ⟨hval, h0, h1, h2, h3, h4⟩ := reduce_spec ha
  rw [← hval]
  generalize reduce a = l at *
  unfold subtract_p
  extract_lets q0 q1 q2 q3 q4 w0 w1 z0 w2 z1 w3 z2 w4 z3 z4
  have p0 : q0.toNat = (l.l0.toNat + 19) / 2 ^ 51 := sum_shift (by omega) (by decide)
  have p1 : q1.toNat = (l.l1.toNat + q0.toNat) / 2 ^ 51 := sum_shift (by omega) (by omega)
  have p2 : q2.toNat = (l.l2.toNat + q1.toNat) / 2 ^ 51 := sum_shift (by omega) (by omega)
  have p3 : q3.toNat = (l.l3.toNat + q2.toNat) / 2 ^ 51 := sum_shift (by omega) (by omega)
  have p4 : q4.toNat = (l.l4.toNat + q3.toNat) / 2 ^ 51 := sum_shift (by omega) (by omega)
  have h19 : (19 * q4).toNat = 19 * q4.toNat := by
    rw [UInt64.mul_comm, limb_mul (by omega) (by decide), Nat.mul_comm]
    rfl
  have n0 : w0.toNat = l.l0.toNat + 19 * q4.toNat := by
    rw [← h19]
    exact add_small (by omega) (by omega)
  have n1 : w1.toNat = l.l1.toNat + w0.toNat / 2 ^ 51 := add_shift (by omega)
  have n2 : w2.toNat = l.l2.toNat + w1.toNat / 2 ^ 51 := add_shift (by omega)
  have n3 : w3.toNat = l.l3.toNat + w2.toNat / 2 ^ 51 := add_shift (by omega)
  have n4 : w4.toNat = l.l4.toNat + w3.toNat / 2 ^ 51 := add_shift (by omega)
  have m0 : z0.toNat = w0.toNat % 2 ^ 51 := and_low _
  have m1 : z1.toNat = w1.toNat % 2 ^ 51 := and_low _
  have m2 : z2.toNat = w2.toNat % 2 ^ 51 := and_low _
  have m3 : z3.toNat = w3.toNat % 2 ^ 51 := and_low _
  have m4 : z4.toNat = w4.toNat % 2 ^ 51 := and_low _
  refine ⟨?_, by simp only; omega, by simp only; omega, by simp only; omega, by simp only; omega,
    by simp only; omega⟩
  have hlow : ∀ n : Nat, n % 2 ^ 51 < 2 ^ 51 := fun n => mod_lt _ (by decide)
  -- `q4` tells whether there is a `p` in the limbs
  have hq := carry_chain p0 p1 p2 p3 p4
  have hqlt := limbs_lt (hlow (l.l0.toNat + 19)) (hlow (l.l1.toNat + q0.toNat))
    (hlow (l.l2.toNat + q1.toNat)) (hlow (l.l3.toNat + q2.toNat)) (hlow (l.l4.toNat + q3.toNat))
  have hv : l.value < P + P := by
    unfold value P
    omega
  -- and with 19 added for it the top carry falls off
  have hw := @carry_chain w0.toNat l.l1.toNat l.l2.toNat l.l3.toNat l.l4.toNat _ _ _ _ _
    rfl rfl rfl rfl rfl
  rw [← n1, ← n2, ← n3, ← n4, ← m0, ← m1, ← m2, ← m3, ← m4] at hw
  have hzlt := @limbs_lt z0.toNat z1.toNat z2.toNat z3.toNat z4.toNat
    (m0 ▸ hlow _) (m1 ▸ hlow _) (m2 ▸ hlow _) (m3 ▸ hlow _) (m4 ▸ hlow _)
  have hz : value ⟨z0, z1, z2, z3, z4⟩ = z0.toNat + 2 ^ 51 * z1.toNat + 2 ^ 102 * z2.toNat +
    2 ^ 153 * z3.toNat + 2 ^ 204 * z4.toNat := rfl
  have hl : l.value = l.l0.toNat + 2 ^ 51 * l.l1.toNat + 2 ^ 102 * l.l2.toNat +
    2 ^ 153 * l.l3.toNat + 2 ^ 204 * l.l4.toNat := rfl
  unfold val
  rw [ZMod.val_natCast]
  apply mod_p_of_carries (hz ▸ hzlt) hqlt hv
  · rw [← hq, hl]
    ring
  · rw [hz, ← hw, n0, hl]
    ring

/-! ## Packing -/

theorem byte_mod (x : UInt64) : x.toUInt8.toNat = x.toNat % 256 := UInt64.toNat_toUInt8 x

theorem byte_shift (x : UInt64) (hs : s.toNat = k) (hk : k < 64) :
    (x >>> s).toUInt8.toNat = x.toNat / 2 ^ k % 256 := by
  rw [byte_mod, UInt64.toNat_shiftRight, hs, mod_eq_of_lt hk, Nat.shiftRight_eq_div_pow]

/-- A byte with the top of one limb below the bottom of the next. -/
theorem byte_joined {x y : UInt64} {t : UInt64} {j : Nat} (hs : s.toNat = j)
    (ht : t.toNat = k) (hj : j + k = 51) (hk : k ≤ 8) (hx : x.toNat < 2 ^ 51)
    (hy : y.toNat < 2 ^ 51) :
    ((x >>> s) ||| (y <<< t)).toUInt8.toNat = (x.toNat / 2 ^ j + 2 ^ k * y.toNat) % 256 := by
  have hlow : x.toNat / 2 ^ j < 2 ^ k := by
    apply Nat.div_lt_of_lt_mul
    rwa [← Nat.pow_add, hj]
  have hhigh : y.toNat * 2 ^ k < 2 ^ 64 := by
    calc y.toNat * 2 ^ k < 2 ^ 51 * 2 ^ k := (Nat.mul_lt_mul_right (Nat.two_pow_pos k)).2 hy
      _ ≤ 2 ^ 51 * 2 ^ 8 := Nat.mul_le_mul_left _ (Nat.pow_le_pow_right (by decide) hk)
      _ < 2 ^ 64 := by decide
  rw [byte_mod, UInt64.toNat_or, UInt64.toNat_shiftRight, UInt64.toNat_shiftLeft, hs, ht,
    mod_eq_of_lt (b := 64) (by omega), mod_eq_of_lt (b := 64) (by omega),
    Nat.shiftRight_eq_div_pow, Nat.shiftLeft_eq, mod_eq_of_lt hhigh, Nat.or_comm,
    ← Nat.shiftLeft_eq, ← Nat.shiftLeft_add_eq_or_of_lt hlow, Nat.shiftLeft_eq, Nat.add_comm,
    Nat.mul_comm]

theorem fold_byte (x c : Nat) {s t : Nat} (ht : t = s + 8) :
    x / 2 ^ s % 256 + 256 * (x / 2 ^ t + c) = x / 2 ^ s + 256 * c := by
  rw [ht, Nat.pow_add, ← Nat.div_div_eq_div_mul]
  omega

/-- A joined byte, put below the bytes of the next limb. -/
theorem fold_joined {x : Nat} (y c : Nat) {j m : Nat} (hx : x < 2 ^ 51) (hj : j + k = 51)
    (hm : k + m = 8) :
    (x / 2 ^ j + 2 ^ k * y) % 256 + 256 * (y / 2 ^ m + c) = x / 2 ^ j + (2 ^ k * y + 256 * c) := by
  have hlow : x / 2 ^ j < 2 ^ k := by
    apply Nat.div_lt_of_lt_mul
    rwa [← Nat.pow_add, hj]
  have h256 : 256 = 2 ^ k * 2 ^ m := by
    rw [← Nat.pow_add, hm]
  have hdiv : (x / 2 ^ j + 2 ^ k * y) / 256 = y / 2 ^ m := by
    rw [h256, ← Nat.div_div_eq_div_mul, Nat.add_mul_div_left _ _ (Nat.two_pow_pos k),
      Nat.div_eq_of_lt hlow, Nat.zero_add]
  have := Nat.mod_add_div (x / 2 ^ j + 2 ^ k * y) 256
  rw [hdiv] at this
  rw [Nat.mul_add, ← Nat.add_assoc, this, Nat.add_assoc]

theorem ofLe_pack {l : FieldElement} (h0 : l.l0.toNat < 2 ^ 51) (h1 : l.l1.toNat < 2 ^ 51)
    (h2 : l.l2.toNat < 2 ^ 51) (h3 : l.l3.toNat < 2 ^ 51) (h4 : l.l4.toNat < 2 ^ 51) :
    ofLe (pack l).1 = l.value := by
  unfold pack value
  simp only [ofLe]
  rw [byte_mod l.l0,
    byte_shift l.l0 (s := 8) (k := 8) rfl (by decide),
    byte_shift l.l0 (s := 16) (k := 16) rfl (by decide),
    byte_shift l.l0 (s := 24) (k := 24) rfl (by decide),
    byte_shift l.l0 (s := 32) (k := 32) rfl (by decide),
    byte_shift l.l0 (s := 40) (k := 40) rfl (by decide),
    byte_joined (s := 48) (t := 3) (j := 48) (k := 3) rfl rfl rfl (by decide) h0 h1,
    byte_shift l.l1 (s := 5) (k := 5) rfl (by decide),
    byte_shift l.l1 (s := 13) (k := 13) rfl (by decide),
    byte_shift l.l1 (s := 21) (k := 21) rfl (by decide),
    byte_shift l.l1 (s := 29) (k := 29) rfl (by decide),
    byte_shift l.l1 (s := 37) (k := 37) rfl (by decide),
    byte_joined (s := 45) (t := 6) (j := 45) (k := 6) rfl rfl rfl (by decide) h1 h2,
    byte_shift l.l2 (s := 2) (k := 2) rfl (by decide),
    byte_shift l.l2 (s := 10) (k := 10) rfl (by decide),
    byte_shift l.l2 (s := 18) (k := 18) rfl (by decide),
    byte_shift l.l2 (s := 26) (k := 26) rfl (by decide),
    byte_shift l.l2 (s := 34) (k := 34) rfl (by decide),
    byte_shift l.l2 (s := 42) (k := 42) rfl (by decide),
    byte_joined (s := 50) (t := 1) (j := 50) (k := 1) rfl rfl rfl (by decide) h2 h3,
    byte_shift l.l3 (s := 7) (k := 7) rfl (by decide),
    byte_shift l.l3 (s := 15) (k := 15) rfl (by decide),
    byte_shift l.l3 (s := 23) (k := 23) rfl (by decide),
    byte_shift l.l3 (s := 31) (k := 31) rfl (by decide),
    byte_shift l.l3 (s := 39) (k := 39) rfl (by decide),
    byte_joined (s := 47) (t := 4) (j := 47) (k := 4) rfl rfl rfl (by decide) h3 h4,
    byte_shift l.l4 (s := 4) (k := 4) rfl (by decide),
    byte_shift l.l4 (s := 12) (k := 12) rfl (by decide),
    byte_shift l.l4 (s := 20) (k := 20) rfl (by decide),
    byte_shift l.l4 (s := 28) (k := 28) rfl (by decide),
    byte_shift l.l4 (s := 36) (k := 36) rfl (by decide),
    byte_shift l.l4 (s := 44) (k := 44) rfl (by decide)]
  -- from the last byte down, each byte joins the bytes above it
  have htop : l.l4.toNat / 2 ^ 44 % 256 + 256 * 0 = l.l4.toNat / 2 ^ 44 + 0 := by
    omega
  have hlast : ∀ c : Nat, l.l0.toNat % 256 + 256 * (l.l0.toNat / 2 ^ 8 + c) =
      l.l0.toNat + 256 * c := by
    intro c
    omega
  rw [htop, fold_byte _ _ (s := 36) (t := 44) rfl,
    fold_byte _ _ (s := 28) (t := 36) rfl,
    fold_byte _ _ (s := 20) (t := 28) rfl,
    fold_byte _ _ (s := 12) (t := 20) rfl,
    fold_byte _ _ (s := 4) (t := 12) rfl,
    fold_joined _ _ (j := 47) (k := 4) (m := 4) h3 rfl rfl,
    fold_byte _ _ (s := 39) (t := 47) rfl,
    fold_byte _ _ (s := 31) (t := 39) rfl,
    fold_byte _ _ (s := 23) (t := 31) rfl,
    fold_byte _ _ (s := 15) (t := 23) rfl,
    fold_byte _ _ (s := 7) (t := 15) rfl,
    fold_joined _ _ (j := 50) (k := 1) (m := 7) h2 rfl rfl,
    fold_byte _ _ (s := 42) (t := 50) rfl,
    fold_byte _ _ (s := 34) (t := 42) rfl,
    fold_byte _ _ (s := 26) (t := 34) rfl,
    fold_byte _ _ (s := 18) (t := 26) rfl,
    fold_byte _ _ (s := 10) (t := 18) rfl,
    fold_byte _ _ (s := 2) (t := 10) rfl,
    fold_joined _ _ (j := 45) (k := 6) (m := 2) h1 rfl rfl,
    fold_byte _ _ (s := 37) (t := 45) rfl,
    fold_byte _ _ (s := 29) (t := 37) rfl,
    fold_byte _ _ (s := 21) (t := 29) rfl,
    fold_byte _ _ (s := 13) (t := 21) rfl,
    fold_byte _ _ (s := 5) (t := 13) rfl,
    fold_joined _ _ (j := 48) (k := 3) (m := 5) h0 rfl rfl,
    fold_byte _ _ (s := 40) (t := 48) rfl,
    fold_byte _ _ (s := 32) (t := 40) rfl,
    fold_byte _ _ (s := 24) (t := 32) rfl,
    fold_byte _ _ (s := 16) (t := 24) rfl,
    fold_byte _ _ (s := 8) (t := 16) rfl, hlast]
  ring

theorem pack_spec {l : FieldElement} (h0 : l.l0.toNat < 2 ^ 51) (h1 : l.l1.toNat < 2 ^ 51)
    (h2 : l.l2.toNat < 2 ^ 51) (h3 : l.l3.toNat < 2 ^ 51) (h4 : l.l4.toNat < 2 ^ 51) :
    (pack l).1 = le 32 l.value := by
  rw [← ofLe_pack h0 h1 h2 h3 h4]
  exact (le_ofLe (pack l).1).symm

/-- The encoding of an element is the number below `p`. -/
theorem to_bytes_spec (ha : Loose a) : (to_bytes a).1 = le 32 a.val.val := by
  obtain ⟨hval, h0, h1, h2, h3, h4⟩ := canonical_spec ha
  unfold to_bytes
  rw [pack_spec h0 h1 h2 h3 h4, hval]

end FieldElement

end paideia_as_crypto.curve
