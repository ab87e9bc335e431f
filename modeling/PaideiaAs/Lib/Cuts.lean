-- Ranges that follow each other with no gap and no overlap. Ranges from cut points:
-- each goes from its own cut to the next one, the last to the end. They are apart
-- and leave no gap, whoever holds them and how often.
import PaideiaAs.Lib.Sorting

namespace Tiling

/-- The ranges, none of them empty, go from the first position to the last. -/
inductive Tiles : Nat → Nat → List (Nat × Nat) → Prop
  | nil (p : Nat) : Tiles p p []
  | cons {p q r : Nat} {rs : List (Nat × Nat)} : p < q → Tiles q r rs → Tiles p r ((p, q) :: rs)

variable {p q : Nat} {rs : List (Nat × Nat)}

theorem Tiles.le (h : Tiles p q rs) : p ≤ q := by
  induction h with
  | nil => exact Nat.le_refl _
  | cons hlt _ ih => exact Nat.le_trans (Nat.le_of_lt hlt) ih

theorem Tiles.lt (h : Tiles p q rs) (hne : rs ≠ []) : p < q := by
  cases h with
  | nil => exact absurd rfl hne
  | cons hlt hrest => exact Nat.lt_of_lt_of_le hlt hrest.le

theorem Tiles.append {r : Nat} {ss : List (Nat × Nat)} (h : Tiles p q rs)
    (h' : Tiles q r ss) : Tiles p r (rs ++ ss) := by
  induction h with
  | nil => exact h'
  | cons hlt _ ih => exact Tiles.cons hlt (ih h')

end Tiling

namespace Cuts

/-- Ranges by start and length: those that start at different points are apart, from
the first start on every point below `stop` is in one, and the last ends there. -/
structure Partition (rs : List (Nat × Nat)) (stop : Nat) : Prop where
  apart : ∀ r ∈ rs, ∀ r' ∈ rs, r.1 ≠ r'.1 → r.1 + r.2 ≤ r'.1 ∨ r'.1 + r'.2 ≤ r.1
  no_gap : ∀ x < stop, (∃ r ∈ rs, r.1 ≤ x) → ∃ r ∈ rs, r.1 ≤ x ∧ x < r.1 + r.2
  last : ∀ r ∈ rs, (∀ r' ∈ rs, r'.1 ≤ r.1) → r.1 + r.2 = stop

/-- Empty ranges at 0 can be left out. -/
theorem Partition.of_subset {rs ss : List (Nat × Nat)} {stop : Nat} (h : Partition rs stop)
    (hsub : ∀ r ∈ ss, r ∈ rs) (hall : ∀ r ∈ rs, r ∈ ss ∨ r = (0, 0)) : Partition ss stop := by
  constructor
  · intro r hr r' hr'
    exact h.apart r (hsub r hr) r' (hsub r' hr')
  · rintro x hx ⟨r, hr, hle⟩
    obtain ⟨r', hr', hle', hlt'⟩ := h.no_gap x hx ⟨r, hsub r hr, hle⟩
    rcases hall r' hr' with hmem | rfl
    · exact ⟨r', hmem, hle', hlt'⟩
    · exact absurd hlt' (Nat.not_lt_zero x)
  · intro r hr hlast
    refine h.last r (hsub r hr) ?_
    intro r' hr'
    rcases hall r' hr' with hmem | rfl
    · exact hlast r' hmem
    · exact Nat.zero_le _

/-- The first cut behind `p`, found by its index, or the end. -/
def next (cuts : List Nat) (stop p : Nat) : Nat :=
  cuts[(cuts.takeWhile (decide <| · ≤ p)).length]?.getD stop

variable {cuts : List Nat} {stop p c : Nat}

/-- In a sorted list it is the least cut behind `p`. -/
theorem next_spec (hsorted : cuts.Pairwise (· < ·)) :
    (next cuts stop p ∈ cuts ∧ p < next cuts stop p ∧
      ∀ c ∈ cuts, p < c → next cuts stop p ≤ c) ∨
    (next cuts stop p = stop ∧ ∀ c ∈ cuts, c ≤ p) := by
  unfold next
  induction cuts with
  | nil => exact .inr ⟨rfl, nofun⟩
  | cons a cuts ih =>
    obtain ⟨hfirst, hrest⟩ := List.pairwise_cons.mp hsorted
    by_cases hap : a ≤ p
    · rw [List.takeWhile_cons_of_pos (by simpa using hap), List.length_cons,
        List.getElem?_cons_succ]
      rcases ih hrest with ⟨hmem, hlt, hleast⟩ | ⟨hstop, hall⟩
      · refine .inl ⟨.tail a hmem, hlt, ?_⟩
        intro c hc hpc
        rcases List.mem_cons.mp hc with rfl | hc
        · omega
        · exact hleast c hc hpc
      · refine .inr ⟨hstop, ?_⟩
        intro c hc
        rcases List.mem_cons.mp hc with rfl | hc
        · exact hap
        · exact hall c hc
    · rw [List.takeWhile_cons_of_neg (by simpa using hap)]
      refine .inl ⟨List.mem_cons_self .., by simpa using hap, ?_⟩
      intro c hc _
      rcases List.mem_cons.mp hc with rfl | hc
      · exact le_rfl
      · exact (hfirst c hc).le

section

variable (hsorted : cuts.Pairwise (· < ·)) (hstop : ∀ c ∈ cuts, c ≤ stop)

include hsorted

theorem next_le (hc : c ∈ cuts) (hpc : p < c) : next cuts stop p ≤ c := by
  rcases @next_spec cuts stop p hsorted with ⟨-, -, hleast⟩ | ⟨-, hall⟩
  · exact hleast c hc hpc
  · have := hall c hc
    omega

include hstop

theorem le_next (hp : p ∈ cuts) : p ≤ next cuts stop p := by
  rcases @next_spec cuts stop p hsorted with ⟨-, hlt, -⟩ | ⟨heq, -⟩
  · exact hlt.le
  · rw [heq]
    exact hstop p hp

/-- Ranges that go to the next cut are apart. -/
theorem apart_of_cuts {rs : List (Nat × Nat)}
    (hrs : ∀ r ∈ rs, r.1 ∈ cuts ∧ r.2 = next cuts stop r.1 - r.1) :
    ∀ r ∈ rs, ∀ r' ∈ rs, r.1 ≠ r'.1 → r.1 + r.2 ≤ r'.1 ∨ r'.1 + r'.2 ≤ r.1 := by
  intro r hr r' hr' hne
  obtain ⟨hmem, hlen⟩ := hrs r hr
  obtain ⟨hmem', hlen'⟩ := hrs r' hr'
  have hle := le_next hsorted hstop hmem
  have hle' := le_next hsorted hstop hmem'
  rcases Nat.lt_or_gt_of_ne hne with hlt | hlt
  · have := @next_le cuts stop _ _ hsorted hmem' hlt
    omega
  · have := @next_le cuts stop _ _ hsorted hmem hlt
    omega

/-- If every cut has its range, they are a partition. -/
theorem partition_of_cuts {rs : List (Nat × Nat)}
    (hrs : ∀ r ∈ rs, r.1 ∈ cuts ∧ r.2 = next cuts stop r.1 - r.1)
    (hall : ∀ c ∈ cuts, ∃ r ∈ rs, r.1 = c) : Partition rs stop := by
  constructor
  · exact apart_of_cuts hsorted hstop hrs
  · rintro x hx ⟨r, hr, hle⟩
    -- from range to range towards `x`: each step begins at a later cut
    induction hd : x - r.1 using Nat.strong_induction_on generalizing r with
    | _ d ih =>
      obtain ⟨hmem, hlen⟩ := hrs r hr
      have hself := le_next hsorted hstop hmem
      by_cases hin : x < r.1 + r.2
      · exact ⟨r, hr, hle, hin⟩
      · rcases @next_spec cuts stop r.1 hsorted with ⟨hnext, hlt, -⟩ | ⟨heq, -⟩
        · obtain ⟨r', hr', hr'eq⟩ := hall _ hnext
          exact ih (x - r'.1) (by omega) r' hr' (by omega) rfl
        · omega
  · intro r hr hlast
    obtain ⟨hmem, hlen⟩ := hrs r hr
    have hle := le_next hsorted hstop hmem
    rcases @next_spec cuts stop r.1 hsorted with ⟨hnext, hlt, -⟩ | ⟨heq, -⟩
    · obtain ⟨r', hr', hr'eq⟩ := hall _ hnext
      have := hlast r' hr'
      omega
    · omega

end

end Cuts
