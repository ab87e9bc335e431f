-- Numbers on a grid: a number is a row and a column below the width, and a strip
-- is some columns of one row.
import Mathlib.Data.List.Nodup
import Mathlib.Data.List.Flatten
import Mathlib.Tactic.Linarith

namespace Rows

structure Strip where
  row : Nat
  cols : List Nat
  deriving DecidableEq

variable (w : Nat)

def Strip.cells (s : Strip) : List Nat := s.cols.map (w * s.row + ·)

def cells (ss : List Strip) : List Nat := ss.flatMap (Strip.cells w)

/-- Two strips of one row have no column in common. -/
def Apart (s t : Strip) : Prop := s.row = t.row → ∀ c ∈ s.cols, c ∉ t.cols

instance (s t : Strip) : Decidable (Apart s t) := inferInstanceAs (Decidable (_ → _))

/-- The columns are columns of the grid, and each is named once. -/
structure Strip.Fits (s : Strip) : Prop where
  lt : ∀ c ∈ s.cols, c < w
  nodup : s.cols.Nodup

variable {w}

@[simp] theorem cells_nil : cells w [] = [] := rfl

@[simp] theorem cells_cons (s : Strip) (ss : List Strip) :
    cells w (s :: ss) = s.cells w ++ cells w ss := rfl

@[simp] theorem cells_append (ss ts : List Strip) :
    cells w (ss ++ ts) = cells w ss ++ cells w ts := List.flatMap_append

theorem mem_cells {s : Strip} {n : Nat} : n ∈ s.cells w ↔ ∃ c ∈ s.cols, w * s.row + c = n := by
  simp [Strip.cells]

/-- A number is in a strip when its row is the strip's and its column is one of the
strip's. -/
theorem mem_cells_iff {s : Strip} (hs : s.Fits w) {n : Nat} :
    n ∈ s.cells w ↔ n / w = s.row ∧ n % w ∈ s.cols := by
  rw [mem_cells]
  constructor
  · rintro ⟨c, hc, rfl⟩
    have hlt := hs.lt c hc
    rw [Nat.mul_add_div (by omega), Nat.div_eq_of_lt hlt, Nat.mul_add_mod, Nat.mod_eq_of_lt hlt]
    exact ⟨by omega, hc⟩
  · rintro ⟨hrow, hcol⟩
    exact ⟨n % w, hcol, by rw [← hrow, Nat.div_add_mod]⟩

theorem disjoint_cells_iff {s t : Strip} (hs : s.Fits w) (ht : t.Fits w) :
    List.Disjoint (s.cells w) (t.cells w) ↔ Apart s t := by
  constructor
  · intro h hrow c hc hct
    exact h (mem_cells.mpr ⟨c, hc, rfl⟩) (mem_cells.mpr ⟨c, hct, by rw [hrow]⟩)
  · intro h n hns hnt
    obtain ⟨hr, hc⟩ := (mem_cells_iff hs).mp hns
    obtain ⟨hr', hc'⟩ := (mem_cells_iff ht).mp hnt
    exact h (by omega) _ hc hc'

/-- The strips of a list name no number twice just when each two of them are
apart. -/
theorem nodup_cells_iff {ss : List Strip} (hss : ∀ s ∈ ss, s.Fits w) :
    (cells w ss).Nodup ↔ ss.Pairwise Apart := by
  unfold cells
  rw [List.nodup_flatMap]
  constructor
  · rintro ⟨-, hpair⟩
    refine hpair.imp_of_mem ?_
    intro s t hs ht hdis
    exact (disjoint_cells_iff (hss s hs) (hss t ht)).mp hdis
  · intro hpair
    refine ⟨?_, hpair.imp_of_mem ?_⟩
    · intro s hs
      exact ((hss s hs).nodup).map (fun a b h => by simpa using h)
    · intro s t hs ht hap
      exact (disjoint_cells_iff (hss s hs) (hss t ht)).mpr hap

end Rows
