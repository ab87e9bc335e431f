-- The outcome of a call of a Rust function: a value, a panic, or no end.
-- A function that may run on without end takes fuel here, and gives `div`
-- when the fuel is spent. Beside it the sums and products of fixed-width integers
-- in a build that checks them: what does not fit is a panic.
import Mathlib.Tactic.NormNum
import Mathlib.Tactic.Positivity

/-- The ways in which a call gives no value. -/
inductive Fault where
  | panic
  | div
  deriving DecidableEq

/-- What a call gives: a value, or a fault. -/
abbrev Outcome (α : Type) := Except Fault α

namespace Outcome

variable {α β : Type}

/-- `Option::expect` and the checked index of Rust: a panic on `None`. -/
def expect : Option α → Outcome α
  | some a => .ok a
  | none => .error .panic

@[simp] theorem expect_some (a : α) : expect (some a) = .ok a := rfl

@[simp] theorem expect_none : expect (none : Option α) = .error .panic := rfl

@[simp] theorem ok_bind (a : α) (f : α → Outcome β) : (Except.ok a : Outcome α) >>= f = f a := rfl

@[simp] theorem error_bind (e : Fault) (f : α → Outcome β) :
    (Except.error e : Outcome α) >>= f = .error e := rfl

/-- A call that went through had its first part go through. -/
theorem bind_eq_ok {x : Outcome α} {f : α → Outcome β} {b : β} :
    x >>= f = .ok b ↔ ∃ a, x = .ok a ∧ f a = .ok b := by
  cases x with
  | ok a => simp
  | error e => simp

end Outcome

namespace Checked

/-- A value of a `u32`. -/
def u32 (x : Nat) : Outcome UInt32 := if x < 2 ^ 32 then .ok (UInt32.ofNat x) else .error .panic

variable {x : Nat}

theorem u32_of_lt (h : x < 2 ^ 32) : u32 x = .ok (UInt32.ofNat x) := if_pos h

theorem toNat_ofNat (h : x < 2 ^ 32) : (UInt32.ofNat x).toNat = x :=
  UInt32.toNat_ofNat_of_lt' h

/-! ## `i128` -/

def InI128 (x : Int) : Prop := -2 ^ 127 ≤ x ∧ x < 2 ^ 127

instance (x : Int) : Decidable (InI128 x) := by
  unfold InI128
  exact inferInstance

/-- A value of an `i128`. -/
def i128 (x : Int) : Outcome Int := if InI128 x then .ok x else .error .panic

/-- `checked_add`, `checked_mul` and the like: none where the value does not fit. -/
def checked_i128 (x : Int) : Option Int := if InI128 x then some x else none

/-- `1i128 << n`: a panic unless `n` is below the width. The top bit is the sign. -/
def shl_i128 (n : Nat) : Outcome Int :=
  if n < 128 then .ok ((2 ^ n : Int).bmod (2 ^ 128)) else .error .panic

theorem i128_of {x : Int} (h : InI128 x) : i128 x = .ok x := if_pos h

theorem checked_i128_of {x : Int} (h : InI128 x) : checked_i128 x = some x := if_pos h

theorem checked_i128_eq_none {x : Int} (h : ¬ InI128 x) : checked_i128 x = none := if_neg h

theorem shl_i128_of_lt {n : Nat} (h : n < 127) : shl_i128 n = .ok (2 ^ n) := by
  have hpow : (2 : Int) ^ n < 2 ^ 127 := by
    have := Nat.pow_lt_pow_right (by decide : 1 < 2) h
    exact_mod_cast this
  have hpos : (0 : Int) ≤ 2 ^ n := by positivity
  unfold shl_i128
  rw [if_pos (by omega), Int.bmod_eq_of_le (by omega) (by norm_num at *; omega)]

end Checked
