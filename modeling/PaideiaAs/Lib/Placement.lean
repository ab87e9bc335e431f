-- Items placed one after the other, each at a multiple of its alignment: the
-- plain numbers, and a machine that counts round a modulus. The machine's
-- places are good exactly when the plain ones stay below the modulus.
import Mathlib.Algebra.Order.Group.Nat
import Mathlib.Data.Nat.Bitwise

namespace Placement

/-! ## Rounding up -/

/-- The distance to the next multiple of `a`. -/
def padding (n a : Nat) : Nat := (a - n % a) % a

/-- The next multiple of `a`. -/
def roundUp (n a : Nat) : Nat := n + padding n a

variable {n a m : Nat}

theorem padding_lt (n : Nat) (ha : 0 < a) : padding n a < a := Nat.mod_lt _ ha

theorem dvd_roundUp (n : Nat) (ha : 0 < a) : a ∣ roundUp n a := by
  have hr := Nat.mod_lt n ha
  unfold roundUp padding
  rw [Nat.dvd_iff_mod_eq_zero, Nat.add_mod, Nat.mod_mod]
  by_cases hz : n % a = 0
  · simp [hz]
  · rw [Nat.mod_eq_of_lt (show a - n % a < a by omega), Nat.add_sub_cancel' hr.le, Nat.mod_self]

theorem le_roundUp (n a : Nat) : n ≤ roundUp n a := Nat.le_add_right _ _

theorem roundUp_lt (n : Nat) (ha : 0 < a) : roundUp n a < n + a :=
  Nat.add_lt_add_left (padding_lt n ha) n

/-- It is the least multiple from `n` on. -/
theorem roundUp_le (ha : 0 < a) (h : n ≤ m) (hm : a ∣ m) : roundUp n a ≤ m := by
  by_contra hlt
  obtain ⟨c, hc⟩ := dvd_roundUp n ha
  obtain ⟨d, rfl⟩ := hm
  have hupper := roundUp_lt n ha
  have hcd : d < c := by
    by_contra hle
    have := Nat.mul_le_mul_left a (Nat.not_lt.mp hle)
    omega
  have hstep := Nat.mul_le_mul_left a (Nat.succ_le_of_lt hcd)
  rw [Nat.mul_succ] at hstep
  omega

/-- The other way to round up: down, from the last number that rounds up to the
same multiple. -/
theorem div_mul_eq_roundUp (n : Nat) (ha : 0 < a) : (n + a - 1) / a * a = roundUp n a := by
  apply Nat.le_antisymm
  · have hle := Nat.div_mul_le_self (n + a - 1) a
    have hlt := dvd_roundUp n ha
    by_contra h
    obtain ⟨c, hc⟩ := hlt
    have hge := le_roundUp n a
    have hcd : c < (n + a - 1) / a := by
      by_contra hle'
      have := Nat.mul_le_mul_right a (Nat.not_lt.mp hle')
      rw [Nat.mul_comm c a] at this
      omega
    have hstep := Nat.mul_le_mul_right a (Nat.succ_le_of_lt hcd)
    rw [Nat.succ_mul, Nat.mul_comm c a] at hstep
    omega
  · refine roundUp_le ha ?_ (Nat.dvd_mul_left _ _)
    have hdiv := Nat.div_add_mod (n + a - 1) a
    have hmod := Nat.mod_lt (n + a - 1) ha
    rw [Nat.mul_comm] at hdiv
    omega

variable {k : Nat}

/-- A mask of the high bits rounds down. -/
theorem and_high {x j : Nat} (hx : x < 2 ^ (j + k)) :
    x &&& ((2 ^ k - 1) <<< j) = x / 2 ^ j * 2 ^ j := by
  rw [← Nat.shiftRight_eq_div_pow, ← Nat.shiftLeft_eq]
  apply Nat.eq_of_testBit_eq
  intro i
  rw [Nat.testBit_and, Nat.testBit_shiftLeft, Nat.testBit_shiftLeft, Nat.testBit_two_pow_sub_one,
    Nat.testBit_shiftRight]
  by_cases hi : j ≤ i
  · rw [Nat.add_sub_cancel' hi]
    by_cases hlow : i - j < k
    · simp [hi, hlow]
    · have hbit : x.testBit i = false :=
        Nat.testBit_lt_two_pow (hx.trans_le (Nat.pow_le_pow_right (by omega) (by omega)))
      simp [hbit]
  · simp [hi]

/-! ## Items -/

/-- A size and an alignment. -/
@[ext] structure Item where
  size : Nat
  align : Nat
  deriving DecidableEq

/-- Where the items start, from `o` on. -/
def starts : Nat → List Item → List Nat
  | _, [] => []
  | o, i :: is => roundUp o i.align :: starts (roundUp o i.align + i.size) is

/-- Where the last item ends. -/
def finish : Nat → List Item → Nat
  | o, [] => o
  | o, i :: is => finish (roundUp o i.align + i.size) is

/-- The items stand from `o` to `e` in order, aligned and one behind the other. -/
def Placed : Nat → List (Nat × Item) → Nat → Prop
  | o, [], e => o ≤ e
  | o, (p, i) :: rest, e => o ≤ p ∧ i.align ∣ p ∧ Placed (p + i.size) rest e

variable {o e : Nat} {is : List Item}

theorem le_finish (o : Nat) (is : List Item) : o ≤ finish o is := by
  induction is generalizing o with
  | nil => exact le_rfl
  | cons i is ih =>
    unfold finish
    have hround := le_roundUp o i.align
    have hrest := ih (roundUp o i.align + i.size)
    omega

variable {i : Item}

/-- No item is larger than the whole. -/
theorem size_le_finish (h : i ∈ is) (o : Nat) : i.size ≤ finish o is := by
  induction is generalizing o with
  | nil => cases h
  | cons j is ih =>
    unfold finish
    rcases List.mem_cons.mp h with rfl | h
    · have := le_finish (roundUp o i.align + i.size) is
      omega
    · exact ih h _

theorem le_of_placed {l : List (Nat × Item)} (h : Placed o l e) : o ≤ e := by
  induction l generalizing o with
  | nil => exact h
  | cons p l ih =>
    obtain ⟨hle, -, hrest⟩ := h
    have := ih hrest
    omega

theorem placed_starts_iff (hpos : ∀ i ∈ is, 0 < i.align) :
    Placed o ((starts o is).zip is) e ↔ finish o is ≤ e := by
  induction is generalizing o with
  | nil => exact Iff.rfl
  | cons i is ih =>
    unfold starts finish
    rw [List.zip_cons_cons]
    unfold Placed
    rw [ih fun j hj => hpos j (List.mem_cons_of_mem i hj)]
    have hi := hpos i (.head _)
    exact ⟨fun h => h.2.2, fun h => ⟨le_roundUp _ _, dvd_roundUp _ hi, h⟩⟩

/-! ## Round a modulus -/

/-- One step of the machine. -/
def wrapStart (m o : Nat) (i : Item) : Nat := (o + padding o i.align) % m

def wrapStarts (m : Nat) : Nat → List Item → List Nat
  | _, [] => []
  | o, i :: is => wrapStart m o i :: wrapStarts m ((wrapStart m o i + i.size) % m) is

def wrapFinish (m : Nat) : Nat → List Item → Nat
  | o, [] => o
  | o, i :: is => wrapFinish m ((wrapStart m o i + i.size) % m) is

theorem wrap_of_finish_lt (h : finish o is < m) :
    wrapStarts m o is = starts o is ∧ wrapFinish m o is = finish o is := by
  induction is generalizing o with
  | nil => exact ⟨rfl, rfl⟩
  | cons i is ih =>
    unfold finish at h
    have hnext := le_finish (roundUp o i.align + i.size) is
    have hstart : wrapStart m o i = roundUp o i.align :=
      Nat.mod_eq_of_lt (by unfold roundUp at hnext h; omega)
    unfold wrapStarts wrapFinish starts finish
    rw [hstart, Nat.mod_eq_of_lt (by omega)]
    obtain ⟨h1, h2⟩ := ih h
    exact ⟨by rw [h1], h2⟩

/-- A sum that went round the modulus by less than `k` falls below `k`. -/
theorem add_lt_of_le_mod {x : Nat} (hx : x < m) (hk : k < m) (h : x ≤ (x + k) % m) : x + k < m := by
  by_contra hge
  have hsub : (x + k) % m = x + k - m := by
    rw [Nat.mod_eq_sub_mod (Nat.not_lt.mp hge), Nat.mod_eq_of_lt (by omega)]
  omega

/-- Items that the machine placed well were placed without going round. -/
theorem finish_lt_of_placed (ho : o < m) (he : e < m) (hitems : ∀ i ∈ is, 0 < i.align ∧ i.align ≤ m)
    (h : Placed o ((wrapStarts m o is).zip is) e) : finish o is < m ∧ finish o is ≤ e := by
  induction is generalizing o with
  | nil => exact ⟨ho, h⟩
  | cons i is ih =>
    unfold wrapStarts at h
    rw [List.zip_cons_cons] at h
    unfold Placed at h
    obtain ⟨hle, hdvd, hrest⟩ := h
    obtain ⟨hpos, hm⟩ := hitems i (.head _)
    have hpad := padding_lt o hpos
    have hstart : wrapStart m o i = roundUp o i.align :=
      Nat.mod_eq_of_lt (add_lt_of_le_mod ho (by omega) hle)
    have hbound := le_of_placed hrest
    rw [Nat.mod_eq_of_lt (by omega), hstart] at hrest
    unfold finish
    exact ih (by rw [← hstart]; omega) (fun j hj => hitems j (List.mem_cons_of_mem i hj)) hrest

/-! ## Aggregates

Items behind one another make an item, and so do a tag of eight bytes and one of
several items. -/

def maxAlign (is : List Item) : Nat := is.foldr (fun i a => max i.align a) 1

def maxSize (is : List Item) : Nat := is.foldr (fun i s => max i.size s) 0

theorem align_le_maxAlign (h : i ∈ is) : i.align ≤ maxAlign is := by
  induction is with
  | nil => cases h
  | cons j is ih =>
    rcases List.mem_cons.mp h with rfl | h
    · exact Nat.le_max_left _ _
    · exact (ih h).trans (Nat.le_max_right _ _)

theorem size_le_maxSize (h : i ∈ is) : i.size ≤ maxSize is := by
  induction is with
  | nil => cases h
  | cons j is ih =>
    rcases List.mem_cons.mp h with rfl | h
    · exact Nat.le_max_left _ _
    · exact (ih h).trans (Nat.le_max_right _ _)

theorem maxSize_le (h : ∀ i ∈ is, i.size ≤ k) : maxSize is ≤ k := by
  induction is with
  | nil => exact Nat.zero_le k
  | cons j is ih =>
    exact Nat.max_le.mpr ⟨h j (.head _), ih fun i hi => h i (.tail j hi)⟩

theorem maxAlign_of {P : Nat → Prop} (h1 : P 1) (h : ∀ i ∈ is, P i.align) : P (maxAlign is) := by
  induction is with
  | nil => exact h1
  | cons j is ih =>
    have hrest := ih fun i hi => h i (.tail j hi)
    show P (max j.align (maxAlign is))
    rcases max_choice j.align (maxAlign is) with hmax | hmax
    · rw [hmax]
      exact h j (.head _)
    · rw [hmax]
      exact hrest

/-- The items in a row, with the end padded. -/
def aggregate (is : List Item) : Item := ⟨roundUp (finish 0 is) (maxAlign is), maxAlign is⟩

/-- Where a payload stands behind the tag. -/
def payloadStart (is : List Item) : Nat := roundUp 8 (maxAlign is)

/-- A tag of eight bytes and room for any of the items. -/
def tagged (is : List Item) : Item :=
  ⟨roundUp (payloadStart is + maxSize is) (max 8 (maxAlign is)), max 8 (maxAlign is)⟩

theorem size_le_aggregate (h : i ∈ is) : i.size ≤ (aggregate is).size :=
  (size_le_finish h 0).trans (le_roundUp _ _)

theorem size_le_tagged (h : i ∈ is) : i.size ≤ (tagged is).size := by
  have hmax := size_le_maxSize h
  have hround := le_roundUp (payloadStart is + maxSize is) (max 8 (maxAlign is))
  show i.size ≤ roundUp _ _
  omega

end Placement
