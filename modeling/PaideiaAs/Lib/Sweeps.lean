-- Equations over numbered units, where each unit has the facts of its own and
-- those of the units it depends on: their least solution, and the sweeps over the
-- units in order that reach it, where a unit sees what the units before it got in
-- the same sweep.
import Mathlib.Data.Finset.Card

namespace Sweeps

/-- `given` facts are there from the start, `own` facts come with every visit of
the unit, and `edge i c` makes the facts of `c` facts of `i`. -/
structure System (F : Type) where
  given : Nat → F → Prop
  own : Nat → F → Prop
  edge : Nat → Nat → Prop

variable {F : Type}

/-- The least solution. -/
inductive Least (S : System F) : Nat → F → Prop where
  | given {i : Nat} {f : F} : S.given i f → Least S i f
  | own {i : Nat} {f : F} : S.own i f → Least S i f
  | edge {i c : Nat} {f : F} : S.edge i c → Least S c f → Least S i f

/-- What the units have after so many sweeps. -/
inductive Within (S : System F) : Nat → Nat → F → Prop where
  | given {k i : Nat} {f : F} : S.given i f → Within S k i f
  | own {k i : Nat} {f : F} : S.own i f → Within S (k + 1) i f
  | earlier {k i c : Nat} {f : F} : S.edge i c → c < i → Within S (k + 1) c f →
      Within S (k + 1) i f
  | later {k i c : Nat} {f : F} : S.edge i c → i ≤ c → Within S k c f → Within S (k + 1) i f

/-- So many sweeps reach the least solution. -/
def Settles (S : System F) (k : Nat) : Prop := ∀ i f, Least S i f → Within S k i f

variable {S : System F} {k m n i : Nat} {f : F}

theorem Within.least (h : Within S k i f) : Least S i f := by
  induction h with
  | given h => exact .given h
  | own h => exact .own h
  | earlier he _ _ ih => exact .edge he ih
  | later he _ _ ih => exact .edge he ih

theorem Within.succ (h : Within S k i f) : Within S (k + 1) i f := by
  induction h with
  | given h => exact .given h
  | own h => exact .own h
  | earlier he hlt _ ih => exact .earlier he hlt ih
  | later he hle _ ih => exact .later he hle ih

theorem Within.mono (h : Within S k i f) (hk : k ≤ m) : Within S m i f := by
  induction m, hk using Nat.le_induction with
  | base => exact h
  | succ m _ ih => exact ih.succ

theorem Settles.mono (h : Settles S k) (hk : k ≤ m) : Settles S m :=
  fun i f hf => (h i f hf).mono hk

/-- A sweep that adds nothing to a fact's units has all of them. -/
theorem within_of_stable (hstable : ∀ i, Within S (k + 1) i f → Within S k i f)
    (h : Least S i f) : Within S k i f := by
  induction h with
  | given h => exact .given h
  | own h => exact hstable _ (.own h)
  | @edge i c _ he _ ih =>
    apply hstable
    rcases Nat.lt_or_ge c i with hlt | hge
    · exact .earlier he hlt (ih hstable).succ
    · exact .later he hge (ih hstable)

/-- A sweep adds nothing exactly when the sweeps before it reached the least
solution. -/
theorem stable_iff_settles : (∀ i f, Within S (k + 1) i f → Within S k i f) ↔ Settles S k := by
  constructor
  · intro h i f hf
    exact within_of_stable (fun i => h i f) hf
  · intro h i f hf
    exact h i f hf.least

/-! ## A bound on the sweeps -/

/-- Only the first `n` units have facts. -/
structure Bounded (S : System F) (n : Nat) : Prop where
  given : ∀ i f, S.given i f → i < n
  own : ∀ i f, S.own i f → i < n
  edge : ∀ i c, S.edge i c → i < n

theorem Bounded.least (hb : Bounded S n) (h : Least S i f) : i < n := by
  cases h with
  | given h => exact hb.given _ _ h
  | own h => exact hb.own _ _ h
  | edge he _ => exact hb.edge _ _ he

open Classical in
/-- The units that have the fact after so many sweeps. -/
noncomputable def holders (S : System F) (n : Nat) (f : F) (k : Nat) : Finset Nat :=
  (Finset.range n).filter fun i => Within S k i f

theorem Bounded.mem_holders (hb : Bounded S n) : i ∈ holders S n f k ↔ Within S k i f := by
  classical
  unfold holders
  simp only [Finset.mem_filter, Finset.mem_range]
  exact ⟨And.right, fun h => ⟨hb.least h.least, h⟩⟩

theorem Bounded.holders_grow (hb : Bounded S n) (h : ¬ ∀ i, Within S (k + 1) i f → Within S k i f) :
    (holders S n f k).card < (holders S n f (k + 1)).card := by
  rw [not_forall] at h
  obtain ⟨i, hi⟩ := h
  rw [Classical.not_imp] at hi
  apply Finset.card_lt_card
  refine ⟨?_, ?_⟩
  · intro j hj
    exact hb.mem_holders.mpr (hb.mem_holders.mp hj).succ
  · intro hsub
    exact hi.2 (hb.mem_holders.mp (hsub (hb.mem_holders.mpr hi.1)))

/-- Each sweep that adds to a fact's units adds at least one of the `n`. -/
theorem Bounded.exists_stable (hb : Bounded S n) (f : F) :
    ∃ k ≤ n, ∀ i, Within S (k + 1) i f → Within S k i f := by
  by_contra hnone
  have hgrow : ∀ k ≤ n, (holders S n f k).card < (holders S n f (k + 1)).card := by
    intro k hk
    exact hb.holders_grow fun h => hnone ⟨k, hk, h⟩
  have hcard : ∀ k ≤ n + 1, k ≤ (holders S n f k).card := by
    intro k
    induction k with
    | zero =>
      intro _
      exact Nat.zero_le _
    | succ k ih =>
      intro hk
      have := ih (by omega)
      have := hgrow k (by omega)
      omega
  have hle : (holders S n f (n + 1)).card ≤ n := by
    have hsub : holders S n f (n + 1) ⊆ Finset.range n := by
      intro i hi
      exact Finset.mem_range.mpr (hb.least (hb.mem_holders.mp hi).least)
    have := Finset.card_le_card hsub
    rwa [Finset.card_range] at this
  have := hcard (n + 1) (Nat.le_refl _)
  omega

/-- As many sweeps as there are units are enough. -/
theorem Bounded.settles (hb : Bounded S n) : Settles S n := by
  intro i f hf
  obtain ⟨k, hk, hstable⟩ := hb.exists_stable f
  exact (within_of_stable hstable hf).mono hk

/-- What a visit of a unit gives it: its own facts, those of the units before it
as they are after this sweep, and those of the others as they were. -/
theorem within_succ_iff : Within S (k + 1) i f ↔ S.given i f ∨ S.own i f ∨
      ∃ c, S.edge i c ∧ (c < i ∧ Within S (k + 1) c f ∨ i ≤ c ∧ Within S k c f) := by
  constructor
  · intro h
    cases h with
    | given h => exact .inl h
    | own h => exact .inr (.inl h)
    | earlier he hlt h => exact .inr (.inr ⟨_, he, .inl ⟨hlt, h⟩⟩)
    | later he hle h => exact .inr (.inr ⟨_, he, .inr ⟨hle, h⟩⟩)
  · rintro (h | h | ⟨c, he, ⟨hlt, h⟩ | ⟨hle, h⟩⟩)
    · exact .given h
    · exact .own h
    · exact .earlier he hlt h
    · exact .later he hle h

theorem within_zero_iff : Within S 0 i f ↔ S.given i f := by
  constructor
  · intro h
    cases h with
    | given h => exact h
  · exact .given

section

variable {T : System F}

/-- A system with more facts and more edges has the same least solution exactly
when what it has more is in the least solution of the other. -/
theorem least_iff_of_le (hgiven : ∀ i f, T.given i f ↔ S.given i f)
    (hown : ∀ i f, S.own i f → T.own i f) (hedge : ∀ i c, S.edge i c → T.edge i c) :
    (∀ i f, Least T i f ↔ Least S i f) ↔
      (∀ i f, T.own i f → Least S i f) ∧ ∀ i c f, T.edge i c → Least S c f → Least S i f := by
  have hle : ∀ i f, Least S i f → Least T i f := by
    intro i f h
    induction h with
    | given h => exact .given ((hgiven _ _).mpr h)
    | own h => exact .own (hown _ _ h)
    | edge he _ ih => exact .edge (hedge _ _ he) ih
  constructor
  · intro h
    refine ⟨fun i f hf => (h i f).mp (.own hf), ?_⟩
    intro i c f he hf
    exact (h i f).mp (.edge he ((h c f).mpr hf))
  · rintro ⟨ho, he⟩ i f
    refine ⟨?_, hle i f⟩
    intro h
    induction h with
    | given h => exact .given ((hgiven _ _).mp h)
    | own h => exact ho _ _ h
    | edge hedge _ ih => exact he _ _ _ hedge ih

theorem Least.renumber {σ : Nat → Nat} (hgiven : ∀ i f, S.given i f → T.given (σ i) f)
    (hown : ∀ i f, S.own i f → T.own (σ i) f) (hedge : ∀ i c, S.edge i c → T.edge (σ i) (σ c))
    (h : Least S i f) : Least T (σ i) f := by
  induction h with
  | given h => exact .given (hgiven _ _ h)
  | own h => exact .own (hown _ _ h)
  | edge he _ ih => exact .edge (hedge _ _ he) ih

end

end Sweeps
