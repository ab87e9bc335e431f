-- Memories of bytes under 64-bit addresses: quads are loaded and stored with the
-- low byte first, and stores of loaded quads copy a block eight bytes at a time.
import Mathlib.Data.BitVec

namespace ByteMemory

open BitVec (ofNat)

abbrev Address := BitVec 64

abbrev Memory := Address → BitVec 8

/-- The `n` bytes from an address on as one number. -/
def bytes (m : Memory) (a : Address) : (n : Nat) → BitVec (8 * n)
  | 0 => 0#0
  | n + 1 => (m (a + ofNat 64 n) ++ bytes m a n).cast (by omega)

def load (m : Memory) (a : Address) : BitVec 64 := bytes m a 8

def store (m : Memory) (a : Address) (v : BitVec 64) : Memory := fun x =>
  if (x - a).toNat < 8 then v.extractLsb' (8 * (x - a).toNat) 8 else m x

/-- The memory where `n` bytes from `dest` on hold what `m` holds from `src` on. -/
def copy (m : Memory) (dest src : Address) (n : Nat) : Memory := fun x =>
  if (x - dest).toNat < n then m (src + (x - dest)) else m x

/-- No byte of the `n` from `a` on is one of those from `b` on. -/
def Apart (a b : Address) (n : Nat) : Prop :=
  ∀ j < n, ∀ k < n, a + ofNat 64 j ≠ b + ofNat 64 k

variable {n : Nat} {m : Memory} {a : Address}

theorem bytes_byte (m : Memory) (a : Address) {k : Nat} (hk : k < n) :
    (bytes m a n).extractLsb' (8 * k) 8 = m (a + ofNat 64 k) := by
  apply BitVec.eq_of_getLsbD_eq
  intro i hi
  rw [BitVec.getLsbD_extractLsb', decide_eq_true hi, Bool.true_and]
  induction n with
  | zero => cases hk
  | succ n ih =>
    unfold bytes
    rw [BitVec.getLsbD_cast, BitVec.getLsbD_append]
    split
    · exact ih (by omega)
    · have hkn : k = n := by omega
      rw [hkn, Nat.add_sub_cancel_left]

theorem bytes_congr {m' : Memory} (h : ∀ k < n, m (a + ofNat 64 k) = m' (a + ofNat 64 k)) :
    bytes m a n = bytes m' a n := by
  induction n with
  | zero => rfl
  | succ n ih =>
    unfold bytes
    rw [h n (Nat.lt_succ_self n), ih fun k hk => h k (Nat.lt_succ_of_lt hk)]

@[simp] theorem copy_zero (m : Memory) (dest src : Address) : copy m dest src 0 = m := by
  funext x
  exact if_neg (Nat.not_lt_zero _)

/-- A quad at the end of a copied block makes the block eight bytes longer. -/
theorem store_copy (m : Memory) (dest src : Address) (hn : n + 8 ≤ 2 ^ 64) :
    store (copy m dest src n) (dest + ofNat 64 n) (load m (src + ofNat 64 n))
      = copy m dest src (n + 8) := by
  funext x
  have hat : (x - (dest + ofNat 64 n)).toNat < 8 ↔
      n ≤ (x - dest).toNat ∧ (x - dest).toNat < n + 8 := by bv_omega
  unfold store
  split
  · rename_i h
    obtain ⟨hle, hlt⟩ := hat.mp h
    rw [load, bytes_byte m _ h, copy, if_pos hlt]
    congr 1
    bv_omega
  · rename_i h
    unfold copy
    by_cases hlt : (x - dest).toNat < n
    · rw [if_pos hlt, if_pos (by omega)]
    · rw [if_neg hlt, if_neg (by omega)]

/-- What is copied does not change the block that it is copied from. -/
theorem load_copy {dest src : Address} {size : Nat}
    (hdisj : Apart dest src size) (hn : n + 8 ≤ size) :
    load (copy m dest src n) (src + ofNat 64 n) = load m (src + ofNat 64 n) := by
  apply bytes_congr
  intro k hk
  refine if_neg fun h => ?_
  refine hdisj _ (show (src + ofNat 64 n + ofNat 64 k - dest).toNat < size by omega)
    (n + k) (by omega) ?_
  bv_omega

theorem load_store (m : Memory) (a : Address) (v : BitVec 64) : load (store m a v) a = v := by
  have hbyte : ∀ k < 8, (load (store m a v) a).extractLsb' (8 * k) 8 = v.extractLsb' (8 * k) 8 := by
    intro k hk
    have hoff : (a + ofNat 64 k - a).toNat = k := by bv_omega
    rw [load, bytes_byte _ _ hk, store, if_pos (by omega), hoff]
  apply BitVec.eq_of_getLsbD_eq
  intro i hi
  have hbit := congrArg (BitVec.getLsbD · (i % 8)) (hbyte (i / 8) (by omega))
  simpa [Nat.mod_lt, Nat.div_add_mod] using hbit

theorem load_store_apart {b : Address} {v : BitVec 64} (h : Apart a b 8) :
    load (store m b v) a = load m a := by
  apply bytes_congr
  intro k hk
  refine if_neg fun hlt => ?_
  refine h k hk _ hlt ?_
  bv_omega

theorem load_congr {m' : Memory}
    (h : ∀ k < 8, m (a + ofNat 64 k) = m' (a + ofNat 64 k)) : load m a = load m' a :=
  bytes_congr h

end ByteMemory
