-- How often the nodes of a graph are run: each node runs a multiset of others, once for
-- each time that they are in it. Less work at the nodes is fewer runs, and strictly fewer
-- where a node that is run has less to do.
import Mathlib.Algebra.BigOperators.Group.Multiset.Basic
import Mathlib.Algebra.Order.BigOperators.Group.Multiset
import Mathlib.Algebra.Order.Group.Nat
import Mathlib.Algebra.Order.Monoid.Canonical.Basic

namespace Repeats

variable {ι : Type} (work work' : ι → Multiset ι)

/-- How often `x` is run when `id` is run once, down to a depth. -/
def count [DecidableEq ι] : Nat → ι → ι → Nat
  | 0, _, _ => 0
  | depth + 1, id, x =>
    (if id = x then 1 else 0) + ((work id).map fun child => count depth child x).sum

/-- What is run when the node is run. -/
inductive Runs : ι → ι → Prop where
  | here (id : ι) : Runs id id
  | step {id child y : ι} (h : child ∈ work id) (rest : Runs child y) : Runs id y

variable {work work'} {P : ι → Prop} {id : ι}

theorem Runs.closed (hP : ∀ id, P id → ∀ child ∈ work id, P child) {y : ι}
    (h : Runs work id y) (hid : P id) : P y := by
  induction h with
  | here id => exact hid
  | step hchild _ ih => exact ih (hP _ hid _ hchild)

theorem sum_mono {s t : Multiset ι} (h : s ≤ t) (f : ι → Nat) : (s.map f).sum ≤ (t.map f).sum := by
  obtain ⟨u, rfl⟩ := Multiset.le_iff_exists_add.mp h
  rw [Multiset.map_add, Multiset.sum_add]
  exact Nat.le_add_right _ _

variable [DecidableEq ι]

/-- At depth one only the node itself is run. -/
theorem count_one (id x : ι) : count work 1 id x = if id = x then 1 else 0 := by
  change (if id = x then 1 else 0) + ((work id).map fun _ => 0).sum = _
  rw [Multiset.map_const', Multiset.sum_replicate, nsmul_zero, Nat.add_zero]

theorem sum_indicator (s : Multiset ι) (x : ι) :
    (s.map fun child => if child = x then 1 else 0).sum = s.count x := by
  induction s using Multiset.induction_on with
  | empty => rfl
  | cons a s ih =>
    rw [Multiset.map_cons, Multiset.sum_cons, ih, Multiset.count_cons, Nat.add_comm]
    by_cases h : a = x
    · rw [if_pos h, if_pos h.symm]
    · rw [if_neg h, if_neg (Ne.symm h)]

section

variable (hP : ∀ id, P id → ∀ child ∈ work id, P child)

include hP

theorem count_le (hle : ∀ id, P id → work' id ≤ work id) (depth : Nat) (hid : P id) (x : ι) :
    count work' depth id x ≤ count work depth id x := by
  induction depth generalizing id with
  | zero => exact Nat.le_refl 0
  | succ depth ih =>
    unfold count
    apply Nat.add_le_add_left
    calc ((work' id).map fun child => count work' depth child x).sum
        ≤ ((work' id).map fun child => count work depth child x).sum := by
          apply Multiset.sum_map_le_sum_map
          intro child hchild
          exact ih (hP id hid child (Multiset.mem_of_le (hle id hid) hchild))
      _ ≤ ((work id).map fun child => count work depth child x).sum := sum_mono (hle id hid) _

omit hP in
/-- Where every node that is run has the same work, all are run as often. -/
theorem count_eq (h : ∀ y, Runs work id y → work' y = work y) (depth : Nat) (x : ι) :
    count work' depth id x = count work depth id x := by
  induction depth generalizing id with
  | zero => rfl
  | succ depth ih =>
    unfold count
    rw [h id (.here id)]
    congr 2
    apply Multiset.map_congr rfl
    intro child hchild
    exact ih fun y hy => h y (.step hchild hy)

/-- A node that is run and has less to do makes a difference. -/
theorem exists_count_lt (hle : ∀ id, P id → work' id ≤ work id) {y : ι} (hy : Runs work id y)
    (hid : P id)
    (hne : work' y ≠ work y) : ∃ depth x, count work' depth id x < count work depth id x := by
  induction hy with
  | here id =>
    obtain ⟨x, hx⟩ : ∃ x, (work' id).count x < (work id).count x := by
      by_contra hnone
      apply hne
      apply le_antisymm (hle id hid)
      rw [Multiset.le_iff_count]
      intro x
      exact Nat.le_of_not_lt fun hlt => hnone ⟨x, hlt⟩
    refine ⟨2, x, ?_⟩
    rw [count, count]
    apply Nat.add_lt_add_left
    simp only [count_one]
    rwa [sum_indicator, sum_indicator]
  | @step id child y hchild _ ih =>
    obtain ⟨depth, x, hlt⟩ := ih (hP id hid child hchild) hne
    refine ⟨depth + 1, x, ?_⟩
    rw [count, count]
    apply Nat.add_lt_add_left
    have hchildren : ∀ c ∈ work id, count work' depth c x ≤ count work depth c x :=
      fun c hc => count_le hP hle depth (hP id hid c hc) x
    calc ((work' id).map fun c => count work' depth c x).sum
        ≤ ((work id).map fun c => count work' depth c x).sum := sum_mono (hle id hid) _
      _ < ((work id).map fun c => count work depth c x).sum :=
          Multiset.sum_lt_sum hchildren ⟨child, hchild, hlt⟩

/-- With less work at the nodes, all are run as often exactly if no node that is run has
less. -/
theorem count_eq_iff (hle : ∀ id, P id → work' id ≤ work id) (hid : P id) :
    (∀ depth x, count work' depth id x = count work depth id x) ↔
      ∀ y, Runs work id y → work' y = work y := by
  constructor
  · intro h y hy
    by_contra hne
    obtain ⟨depth, x, hlt⟩ := exists_count_lt hP hle hy hid hne
    exact Nat.ne_of_lt hlt (h depth x)
  · intro h depth x
    exact count_eq h depth x

end

end Repeats
