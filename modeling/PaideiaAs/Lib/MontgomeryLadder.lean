-- The Montgomery ladder on x-only coordinates, in any commutative ring: the swap before
-- and after every step, and the two multiples that its two pairs stand for.
import Mathlib.Data.List.Induction
import Mathlib.Tactic.Ring
import Mathlib.Tactic.Abel

namespace MontgomeryLadder

variable {F : Type} [CommRing F]

/-! ## The formulas -/

/-- A projective x-coordinate. -/
structure Pair (F : Type) where
  x : F
  z : F

def double (a24 : F) (p : Pair F) : Pair F :=
  let aa := (p.x + p.z) ^ 2
  let bb := (p.x - p.z) ^ 2
  let e := aa - bb
  ⟨aa * bb, e * (aa + a24 * e)⟩

/-- Differential addition of two points whose difference has the coordinate `x1`. -/
def diffAdd (x1 : F) (p q : Pair F) : Pair F :=
  let da := (q.x - q.z) * (p.x + p.z)
  let cb := (q.x + q.z) * (p.x - p.z)
  ⟨(da + cb) ^ 2, x1 * (da - cb) ^ 2⟩

theorem diffAdd_comm (x1 : F) (p q : Pair F) : diffAdd x1 p q = diffAdd x1 q p := by
  unfold diffAdd
  simp only [Pair.mk.injEq]
  constructor <;> ring

/-! ## The ladder -/

/-- The pairs of a multiple and of the next multiple. -/
structure State (F : Type) where
  p : Pair F
  q : Pair F

def State.swapIf (b : Bool) (s : State F) : State F := if b then ⟨s.q, s.p⟩ else s

def rawStep (a24 x1 : F) (s : State F) : State F := ⟨double a24 s.p, diffAdd x1 s.p s.q⟩

/-- One step: the swap is made before it and undone after it. -/
def step (a24 x1 : F) (s : State F) (b : Bool) : State F :=
  (rawStep a24 x1 (s.swapIf b)).swapIf b

def start (x1 : F) : State F := ⟨⟨1, 0⟩, ⟨x1, 1⟩⟩

/-- The steps over the bits, the highest first. -/
def run (a24 x1 : F) (bits : List Bool) : State F := bits.foldl (step a24 x1) (start x1)

theorem run_snoc (a24 x1 : F) (bits : List Bool) (b : Bool) :
    run a24 x1 (bits ++ [b]) = step a24 x1 (run a24 x1 bits) b := by
  simp [run]

omit [CommRing F] in
theorem swapIf_swapIf (b c : Bool) (s : State F) : (s.swapIf b).swapIf c = s.swapIf (b ^^ c) := by
  cases b <;> cases c <;> rfl

/-- The number that the bits stand for. -/
def ofBits (bits : List Bool) : Nat := bits.foldl (fun n b => 2 * n + b.toNat) 0

theorem ofBits_snoc (bits : List Bool) (b : Bool) :
    ofBits (bits ++ [b]) = 2 * ofBits bits + b.toNat := by
  simp [ofBits]

/-! ## What the pairs stand for -/

variable {E : Type} [AddCommGroup E]

/-- `Image` relates points to their x-only coordinates, and the two formulas are right
for it where the difference is `P`, with the coordinate `x1`. -/
structure XOnly (P : E) (a24 x1 : F) (Image : E → Pair F → Prop) : Prop where
  zero : Image 0 ⟨1, 0⟩
  base : Image P ⟨x1, 1⟩
  double : ∀ Q p, Image Q p → Image (Q + Q) (double a24 p)
  diffAdd : ∀ Q p q, Image Q p → Image (Q + P) q → Image (Q + (Q + P)) (diffAdd x1 p q)

variable {P : E} {a24 x1 : F} {Image : E → Pair F → Prop}

/-- The pairs stand for `n` times the point and `n + 1` times the point. -/
def Holds (P : E) (Image : E → Pair F → Prop) (n : Nat) (s : State F) : Prop :=
  Image (n • P) s.p ∧ Image ((n + 1) • P) s.q

theorem step_holds (h : XOnly P a24 x1 Image) {n : Nat} {s : State F}
    (hs : Holds P Image n s) (b : Bool) :
    Holds P Image (2 * n + b.toNat) (step a24 x1 s b) := by
  obtain ⟨hp, hq⟩ := hs
  have hq' : Image (n • P + P) s.q := by
    rwa [← succ_nsmul]
  have hsum := h.diffAdd _ _ _ hp hq'
  cases b with
  | false =>
    refine ⟨?_, ?_⟩
    · have := h.double _ _ hp
      rwa [← two_nsmul, ← mul_nsmul'] at this
    · have he : n • P + (n • P + P) = (2 * n + 1) • P := by
        rw [succ_nsmul, two_mul, add_nsmul]
        abel
      rwa [he] at hsum
  | true =>
    refine ⟨?_, ?_⟩
    · have he : n • P + (n • P + P) = (2 * n + 1) • P := by
        rw [succ_nsmul, two_mul, add_nsmul]
        abel
      rw [he, diffAdd_comm] at hsum
      exact hsum
    · have := h.double _ _ hq
      rw [← two_nsmul, ← mul_nsmul'] at this
      exact this

/-- The invariant of the ladder. -/
theorem run_holds (h : XOnly P a24 x1 Image) (bits : List Bool) :
    Holds P Image (ofBits bits) (run a24 x1 bits) := by
  induction bits using List.reverseRecOn with
  | nil =>
    refine ⟨?_, ?_⟩
    · change Image (0 • P) _
      rw [zero_nsmul]
      exact h.zero
    · change Image ((0 + 1) • P) _
      rw [zero_add, one_nsmul]
      exact h.base
  | append_singleton bits b ih =>
    rw [run_snoc, ofBits_snoc]
    exact step_holds h ih b

end MontgomeryLadder
