-- Little-endian bytes: a number written in `n` bytes and read back, as a
-- natural number and as a two's complement number, and a field overwritten
-- in the middle of a byte string.
import Mathlib.Tactic.Positivity
import Mathlib.Tactic.Ring

namespace Bytes

/-- The `n` low bytes of `x`, the least significant one first. -/
def le : Nat → Nat → List UInt8
  | 0, _ => []
  | n + 1, x => UInt8.ofNat x :: le n (x / 256)

/-- The number that a byte string stands for. -/
def ofLe : List UInt8 → Nat
  | [] => 0
  | b :: bs => b.toNat + 256 * ofLe bs

@[simp] theorem length_le (n x : Nat) : (le n x).length = n := by
  induction n generalizing x with
  | zero => rfl
  | succ n ih => simp [le, ih]

theorem ofLe_le (n x : Nat) : ofLe (le n x) = x % 256 ^ n := by
  induction n generalizing x with
  | zero => simp [le, ofLe, Nat.mod_one]
  | succ n ih =>
    have hstep : x % 256 ^ (n + 1) = x % 256 + 256 * (x / 256 % 256 ^ n) := by
      rw [pow_succ, mul_comm, Nat.mod_mul]
    simp only [le, ofLe, ih, hstep]
    simp

variable (bs : List UInt8)

theorem ofLe_lt : ofLe bs < 256 ^ bs.length := by
  induction bs with
  | nil => simp [ofLe]
  | cons b bs ih =>
    have hb := b.toNat_lt
    simp only [ofLe, List.length_cons, pow_succ]
    omega

/-- Every byte string is the number it stands for, written in as many bytes. -/
theorem le_ofLe : le bs.length (ofLe bs) = bs := by
  induction bs with
  | nil => rfl
  | cons b bs ih =>
    have hb := b.toNat_lt
    have hdiv : (b.toNat + 256 * ofLe bs) / 256 = ofLe bs := by omega
    have hmod : UInt8.ofNat (b.toNat + 256 * ofLe bs) = b := by
      rw [← UInt8.toNat_inj]
      simp
    simp only [List.length_cons, le, ofLe, hdiv, hmod, ih]

theorem ofLe_append (xs ys : List UInt8) :
    ofLe (xs ++ ys) = ofLe xs + 256 ^ xs.length * ofLe ys := by
  induction xs with
  | nil => simp [ofLe]
  | cons b xs ih =>
    simp only [List.cons_append, ofLe, ih, List.length_cons, pow_succ]
    ring

/-- The bytes from `i` on are the number without its `i` low bytes. -/
theorem ofLe_drop {i : Nat} (hi : i ≤ bs.length) : ofLe (bs.drop i) = ofLe bs / 256 ^ i := by
  have hlen : (bs.take i).length = i := List.length_take_of_le hi
  have hlow := ofLe_lt (bs.take i)
  have hsplit := ofLe_append (bs.take i) (bs.drop i)
  rw [hlen] at hlow hsplit
  rw [List.take_append_drop] at hsplit
  rw [hsplit, Nat.add_mul_div_left _ _ (by positivity), Nat.div_eq_of_lt hlow, Nat.zero_add]

variable {n : Nat} {x : Int}

theorem ofLe_take (hn : n ≤ bs.length) : ofLe (bs.take n) = ofLe bs % 256 ^ n := by
  have hlen : (bs.take n).length = n := List.length_take_of_le hn
  have hlow := ofLe_lt (bs.take n)
  have hsplit := ofLe_append (bs.take n) (bs.drop n)
  rw [hlen] at hlow hsplit
  rw [List.take_append_drop] at hsplit
  rw [hsplit, Nat.add_mul_mod_self_left, Nat.mod_eq_of_lt hlow]

/-- One byte of the number. -/
theorem ofLe_getD (i : Nat) : (bs.getD i 0).toNat = ofLe bs / 256 ^ i % 256 := by
  induction bs generalizing i with
  | nil => simp [ofLe]
  | cons b bs ih =>
    have hb := b.toNat_lt
    cases i with
    | zero =>
      simp only [List.getD_cons_zero, ofLe, pow_zero, Nat.div_one]
      omega
    | succ i =>
      rw [List.getD_cons_succ, ih, pow_succ', ← Nat.div_div_eq_div_mul]
      have hdiv : ofLe (b :: bs) / 256 = ofLe bs := by
        simp only [ofLe]
        omega
      rw [hdiv]

/-- A byte replaced by another one. -/
theorem ofLe_set {i : Nat} (hi : i < bs.length) (v : UInt8) :
    ofLe (bs.set i v) + 256 ^ i * (bs.getD i 0).toNat = ofLe bs + 256 ^ i * v.toNat := by
  induction bs generalizing i with
  | nil => cases hi
  | cons b bs ih =>
    cases i with
    | zero =>
      simp only [List.set_cons_zero, ofLe, List.getD_cons_zero, pow_zero, Nat.one_mul]
      omega
    | succ i =>
      have hrest := ih (Nat.lt_of_succ_lt_succ hi)
      simp only [List.set_cons_succ, ofLe, List.getD_cons_succ, pow_succ']
      rw [Nat.mul_assoc, Nat.mul_assoc]
      omega

/-! ## Two's complement -/

/-- The `n` low bytes of `x` in two's complement. -/
def sle (n : Nat) (x : Int) : List UInt8 := le n (x % (256 ^ n : Nat)).toNat

/-- The signed number that a byte string stands for: its top bit is the sign. -/
def signed (bs : List UInt8) : Int := (ofLe bs : Int).bmod (256 ^ bs.length)

@[simp] theorem length_sle (n : Nat) (x : Int) : (sle n x).length = n := by
  simp [sle]

theorem ofLe_sle (n : Nat) (x : Int) : (ofLe (sle n x) : Int) = x % (256 ^ n : Nat) := by
  have hpos : (0 : Int) < (256 ^ n : Nat) := by positivity
  have h0 := Int.emod_nonneg x (ne_of_gt hpos)
  have h1 := Int.emod_lt_of_pos x hpos
  rw [sle, ofLe_le, Nat.mod_eq_of_lt (by omega), Int.toNat_of_nonneg h0]

theorem signed_sle (n : Nat) (x : Int) : signed (sle n x) = x.bmod (256 ^ n) := by
  rw [signed, ofLe_sle, length_sle, Int.emod_bmod]

/-- A number that fits in `n` bytes is read back as it was written. -/
theorem signed_sle_of_fits (hn : 0 < n)
    (hlo : -(128 * 256 ^ (n - 1) : Nat) ≤ x) (hhi : x < (128 * 256 ^ (n - 1) : Nat)) :
    signed (sle n x) = x := by
  obtain ⟨m, rfl⟩ : ∃ m, n = m + 1 := ⟨n - 1, by omega⟩
  rw [signed_sle]
  simp only [Nat.add_sub_cancel] at hlo hhi
  have hpow : 256 ^ (m + 1) = 2 * (128 * 256 ^ m) := by ring
  rw [hpow]
  generalize 128 * 256 ^ m = k at hlo hhi
  exact Int.bmod_eq_of_le (by omega) (by omega)

/-- Only a number that fits in `n` bytes is read back as it was written. -/
theorem fits_of_signed_sle (hn : 0 < n) (h : signed (sle n x) = x) :
    -(128 * 256 ^ (n - 1) : Nat) ≤ x ∧ x < (128 * 256 ^ (n - 1) : Nat) := by
  obtain ⟨m, rfl⟩ : ∃ m, n = m + 1 := ⟨n - 1, by omega⟩
  rw [signed_sle] at h
  have hpow : 256 ^ (m + 1) = 2 * (128 * 256 ^ m) := by ring
  have hpos : 0 < 128 * 256 ^ m := by positivity
  rw [hpow] at h
  simp only [Nat.add_sub_cancel]
  generalize 128 * 256 ^ m = k at h hpos ⊢
  have hlo := @Int.le_bmod x (2 * k) (by omega)
  have hhi := @Int.bmod_lt x (2 * k) (by omega)
  omega

theorem signed_sle_eq_iff (hn : 0 < n) : signed (sle n x) = x ↔
      -(128 * 256 ^ (n - 1) : Nat) ≤ x ∧ x < (128 * 256 ^ (n - 1) : Nat) :=
  ⟨fits_of_signed_sle hn, fun h => signed_sle_of_fits hn h.1 h.2⟩

/-- Only the value modulo the size of the field is written. -/
theorem sle_bmod (n : Nat) (x : Int) : sle n (x.bmod (256 ^ n)) = sle n x := by
  unfold sle
  rw [Int.bmod_emod]

/-- `bs` with the bytes from `pos` on replaced by `field`. -/
def patch (bs : List UInt8) (pos : Nat) (field : List UInt8) : List UInt8 :=
  bs.take pos ++ field ++ bs.drop (pos + field.length)

theorem patch_append (front old back field : List UInt8) (h : field.length = old.length) :
    patch (front ++ old ++ back) front.length field = front ++ field ++ back := by
  unfold patch
  rw [h, ← List.length_append, List.drop_left, List.append_assoc front old back, List.take_left]

/-- Bytes in front of the overwritten part stay. -/
theorem patch_add (front tail : List UInt8) (k : Nat) (field : List UInt8) :
    patch (front ++ tail) (front.length + k) field = front ++ patch tail k field := by
  unfold patch
  rw [List.take_length_add_append, Nat.add_assoc, List.drop_length_add_append]
  simp

end Bytes
