-- Reading numbers from text: digits in a radix, and the integer readers of the
-- Rust standard library.
import Mathlib.Data.List.Basic
import Mathlib.Data.Option.Basic
import Mathlib.Algebra.Ring.Nat

namespace Radix

/-! ## Digits -/

/-- `char::to_digit`. -/
def toDigit (radix : Nat) (c : Char) : Option Nat :=
  let n := c.toNat
  let d :=
    if 48 ≤ n ∧ n ≤ 57 then n - 48
    else if 97 ≤ n ∧ n ≤ 122 then n - 87
    else if 65 ≤ n ∧ n ≤ 90 then n - 55
    else 36
  if d < radix ∧ d < 36 then some d else none

def digits (radix : Nat) : Nat → List Char → Option Nat
  | acc, [] => some acc
  | acc, c :: cs => (toDigit radix c).bind fun d => digits radix (acc * radix + d) cs

/-- A run of digits, at least one. -/
def natural (radix : Nat) (cs : List Char) : Option Nat :=
  if cs = [] then none else digits radix 0 cs

variable {radix : Nat} {c : Char} {cs : List Char}

theorem digits_none (hc : c ∈ cs) (h : toDigit radix c = none) (acc : Nat) :
    digits radix acc cs = none := by
  induction cs generalizing acc with
  | nil => cases hc
  | cons a cs ih =>
    unfold digits
    rcases List.mem_cons.mp hc with rfl | hc
    · rw [h, Option.bind_none]
    · cases toDigit radix a with
      | none => rfl
      | some d => exact ih hc _

theorem natural_none (hc : c ∈ cs) (h : toDigit radix c = none) : natural radix cs = none := by
  unfold natural
  split
  · rfl
  · exact digits_none hc h 0

theorem digits_isSome (h : ∀ c ∈ cs, (toDigit radix c).isSome) (acc : Nat) :
    (digits radix acc cs).isSome := by
  induction cs generalizing acc with
  | nil => rfl
  | cons a cs ih =>
    obtain ⟨d, hd⟩ := Option.isSome_iff_exists.mp (h a (.head _))
    simp only [digits, hd, Option.bind_some]
    exact ih (fun c hc => h c (.tail a hc)) _

theorem toDigit_zero (h : toDigit radix c = some 0) : c = '0' := by
  unfold toDigit at h
  dsimp only at h
  have hc : c.toNat = 48 := by
    split_ifs at h <;> simp only [Option.some.injEq] at h <;> omega
  exact Char.toNat_inj.mp hc

theorem digits_zero {acc : Nat} (hradix : 0 < radix) (h : digits radix acc cs = some 0) :
    acc = 0 ∧ ∀ c ∈ cs, c = '0' := by
  induction cs generalizing acc with
  | nil => exact ⟨by simpa [digits] using h, by simp⟩
  | cons a cs ih =>
    unfold digits at h
    obtain ⟨d, hd, hrest⟩ := Option.bind_eq_some_iff.mp h
    obtain ⟨hacc, hall⟩ := ih hrest
    have hsum : acc * radix = 0 ∧ d = 0 := by omega
    have hzero : acc = 0 := by
      rcases Nat.mul_eq_zero.mp hsum.1 with h0 | h0
      · exact h0
      · omega
    refine ⟨hzero, ?_⟩
    intro c hc
    rcases List.mem_cons.mp hc with rfl | hc
    · exact toDigit_zero (hsum.2 ▸ hd)
    · exact hall c hc

theorem digits_of_zeros (hradix : 0 < radix) (h : ∀ c ∈ cs, c = '0') : digits radix 0 cs = some 0 := by
  induction cs with
  | nil => rfl
  | cons a cs ih =>
    obtain rfl : a = '0' := h a (.head _)
    have hd : toDigit radix '0' = some 0 := by simp [toDigit, hradix]
    simp only [digits, hd, Option.bind_some, Nat.zero_mul, Nat.zero_add]
    exact ih fun c hc => h c (.tail _ hc)

theorem natural_zero_iff {v : Nat} (hradix : 0 < radix) (h : natural radix cs = some v) :
    v = 0 ↔ ∀ c ∈ cs, c = '0' := by
  unfold natural at h
  split_ifs at h
  constructor
  · rintro rfl
    exact (digits_zero hradix h).2
  · intro hall
    rw [digits_of_zeros hradix hall] at h
    exact (Option.some.inj h).symm

/-! ## The readers of the standard library -/

/-- `from_str_radix` of an unsigned type: a plus sign may stand in front, and a
number that needs more bits is an error. -/
def unsigned (bits radix : Nat) (cs : List Char) : Option Nat :=
  (natural radix (if cs.head? = some '+' then cs.tail else cs)).filter (· < 2 ^ bits)

/-- `str::parse` of a signed type. -/
def signed (bits : Nat) (cs : List Char) : Option Int :=
  match cs with
  | '-' :: cs => ((natural 10 cs).filter (· ≤ 2 ^ (bits - 1))).map fun n => -(n : Int)
  | '+' :: cs => ((natural 10 cs).filter (· < 2 ^ (bits - 1))).map Int.ofNat
  | cs => ((natural 10 cs).filter (· < 2 ^ (bits - 1))).map Int.ofNat

theorem unsigned_none (bits : Nat) (hc : c ∈ cs) (h : toDigit radix c = none) (hplus : c ≠ '+') :
    unsigned bits radix cs = none := by
  have hmem : c ∈ (if cs.head? = some '+' then cs.tail else cs) := by
    split
    · rename_i hhead
      cases cs with
      | nil => cases hc
      | cons a cs =>
        obtain rfl : a = '+' := by simpa using hhead
        simpa [hplus] using hc
    · exact hc
  rw [unsigned, natural_none hmem h]
  rfl

theorem unsigned_natural (bits : Nat) (h : cs.head? ≠ some '+') :
    unsigned bits radix cs = (natural radix cs).filter (· < 2 ^ bits) := by
  rw [unsigned, if_neg h]

theorem signed_natural (bits : Nat) (hplus : cs.head? ≠ some '+') (hminus : cs.head? ≠ some '-') :
    signed bits cs = ((natural 10 cs).filter (· < 2 ^ (bits - 1))).map Int.ofNat := by
  unfold signed
  split
  · simp at hminus
  · simp at hplus
  · rfl

theorem toString_inj {a b : Nat} (h : toString a = toString b) : a = b := by
  have hlist : Nat.toDigits 10 a = Nat.toDigits 10 b := by
    have := congrArg String.toList h
    simpa using this
  have := congrArg (fun cs => Nat.ofDigitChars 10 cs 0) hlist
  simpa [Nat.ofDigitChars_toDigits] using this

end Radix
