-- Sums that saturate at two bounds. While no running sum leaves the bounds the
-- result is the sum itself, and where all terms have one sign it is the sum
-- brought to the bound; otherwise it depends on the order of the terms.
import Mathlib.Algebra.BigOperators.Group.List.Lemmas
import Mathlib.Algebra.Order.BigOperators.Group.List
import Mathlib.Algebra.Order.Ring.Int

namespace Saturating

variable (lo hi : Int)

def clamp (x : Int) : Int := max lo (min x hi)

/-- The sum of a list from `acc`, brought to the bounds at every step. -/
def sum (acc : Int) (ns : List Int) : Int := ns.foldl (fun acc n => clamp lo hi (acc + n)) acc

/-- Every running sum is within the bounds. -/
def Fits (acc : Int) : List Int → Prop
  | [] => True
  | n :: ns => (lo ≤ acc + n ∧ acc + n ≤ hi) ∧ Fits (acc + n) ns

instance (acc : Int) (ns : List Int) : Decidable (Fits lo hi acc ns) := by
  induction ns generalizing acc with
  | nil => exact .isTrue trivial
  | cons n ns ih => exact @instDecidableAnd _ _ _ (ih _)

/-- All terms are of one sign. -/
def OneSigned (ns : List Int) : Prop := (∀ n ∈ ns, 0 ≤ n) ∨ ∀ n ∈ ns, n ≤ 0

variable {lo hi : Int} {acc : Int} {ns ms : List Int}

theorem sum_cons (n : Int) : sum lo hi acc (n :: ns) = sum lo hi (clamp lo hi (acc + n)) ns := rfl

theorem sum_of_fits (h : Fits lo hi acc ns) : sum lo hi acc ns = acc + ns.sum := by
  induction ns generalizing acc with
  | nil => exact (Int.add_zero acc).symm
  | cons n ns ih =>
    obtain ⟨hn, hns⟩ := h
    have hclamp : clamp lo hi (acc + n) = acc + n := by
      unfold clamp
      omega
    rw [sum_cons, hclamp, ih hns, List.sum_cons]
    omega

theorem OneSigned.tail {n : Int} (h : OneSigned (n :: ns)) : OneSigned ns :=
  h.imp (fun h m hm => h m (.tail _ hm)) fun h m hm => h m (.tail _ hm)

theorem OneSigned.signs {n : Int} (h : OneSigned (n :: ns)) :
    0 ≤ n ∧ 0 ≤ ns.sum ∨ n ≤ 0 ∧ ns.sum ≤ 0 := by
  rcases h with h | h
  · refine .inl ⟨h n (.head _), List.sum_nonneg fun m hm => ?_⟩
    exact h m (.tail _ hm)
  · refine .inr ⟨h n (.head _), ?_⟩
    have hle := List.sum_le_card_nsmul ns 0 fun m hm => h m (.tail _ hm)
    rwa [nsmul_zero] at hle

/-- Terms of one sign reach the bound once, or never. -/
theorem sum_of_oneSigned (hacc : lo ≤ acc ∧ acc ≤ hi) (h : OneSigned ns) :
    sum lo hi acc ns = clamp lo hi (acc + ns.sum) := by
  induction ns generalizing acc with
  | nil =>
    rw [List.sum_nil, Int.add_zero]
    unfold sum clamp
    rw [List.foldl_nil]
    omega
  | cons n ns ih =>
    have hsigns := h.signs
    rw [sum_cons, ih _ h.tail, List.sum_cons]
    · unfold clamp
      omega
    · unfold clamp
      omega

theorem OneSigned.perm (h : OneSigned ns) (hp : ns.Perm ms) : OneSigned ms :=
  h.imp (fun h n hn => h n (hp.mem_iff.mpr hn)) fun h n hn => h n (hp.mem_iff.mpr hn)

theorem sum_perm (hacc : lo ≤ acc ∧ acc ≤ hi) (hp : ns.Perm ms)
    (h : OneSigned ns ∨ Fits lo hi acc ns ∧ Fits lo hi acc ms) :
    sum lo hi acc ns = sum lo hi acc ms := by
  rcases h with h | ⟨hns, hms⟩
  · rw [sum_of_oneSigned hacc h, sum_of_oneSigned hacc (h.perm hp), hp.sum_eq]
  · rw [sum_of_fits hns, sum_of_fits hms, hp.sum_eq]

end Saturating
