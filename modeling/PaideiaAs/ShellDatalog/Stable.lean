-- The perfect model as a stable one: the least set over the stated facts with
-- negation read from the set itself. No stratum is in that statement, so
-- that models of two programs with different strata can be compared.
import PaideiaAs.ShellDatalog.Perfect

open Closure

namespace paideia_as_shell_datalog

/-- The least set over the stated facts that the rules keep, when a negated
goal is read in the set. -/
def Stable (p : Program) (M : Set Fact) : Prop := M = least (instances p.rules M) p.stated

section

variable {p : Program} {s : Strata} {M : Set Fact} {f : Fact}

theorem Stable.closed (h : Stable p M) {rule : Rule} (hr : rule ∈ p.rules) {σ : Valuation}
    (hf : Fires rule M M σ f) : f ∈ M := by
  obtain ⟨i, hi, rfl, hb⟩ := instances_iff.mpr ⟨rule, hr, σ, hf⟩
  have hmem : i.head ∈ least (instances p.rules M) p.stated :=
    least_closed hi fun g hg => h ▸ hb g hg
  exact h ▸ hmem

theorem Stable.stated (h : Stable p M) (hf : f ∈ p.stated) : f ∈ M := by
  have hmem : f ∈ least (instances p.rules M) p.stated := base_subset hf
  exact h ▸ hmem

/-- What holds of the stated facts, and of what a rule gives from facts of the
set that have it, holds of a stable set. -/
theorem Stable.induct (h : Stable p M) (S : Set Fact) (hstated : ∀ f ∈ p.stated, f ∈ S)
    (hstep : ∀ rule ∈ p.rules, ∀ σ f, Fires rule (M ∩ S) M σ f → f ∈ S) : M ⊆ S := by
  intro f hf
  rw [h] at hf
  refine least_induct hstated ?_ hf
  intro i hi hb
  rw [← h] at hb
  obtain ⟨rule, hr, σ, hfires⟩ := instances_iff.mp ⟨i, hi, rfl, hb⟩
  exact hstep rule hr σ i.head hfires

theorem Stable.stated_of_no_rule (h : Stable p M) (hf : f ∈ M)
    (hno : ∀ rule ∈ p.rules, rule.head.predicate ≠ f.1) : f ∈ p.stated := by
  rw [h] at hf
  rcases least_cases hf with hf | ⟨i, hi, rfl, hb⟩
  · exact hf
  · obtain ⟨rule, hr, σ, hfires⟩ := instances_iff.mp ⟨i, hi, rfl, hb⟩
    exact absurd hfires.predicate (hno rule hr)

/-- A stratum adds facts of its own predicates only. -/
theorem stage_new (k : Nat) (hf : f ∈ stage p s (k + 1)) : f ∈ stage p s k ∨ s.stratum f.1 = k := by
  rcases least_cases hf with hf | ⟨i, hi, rfl, hb⟩
  · exact .inl hf
  · obtain ⟨rule, hr, σ, hfires⟩ := instances_iff.mp ⟨i, hi, rfl, hb⟩
    right
    rw [← hfires.predicate]
    exact (mem_rules_of_stratum.mp hr).2

theorem stage_complete (hf : f ∈ perfectModel p s) {k : Nat}
    (hk : s.stratum f.1 < k) : f ∈ stage p s k := by
  obtain ⟨m, hm⟩ := Set.mem_iUnion.mp hf
  induction m with
  | zero => exact stage_le (Nat.zero_le k) hm
  | succ m ih =>
    rcases stage_new m hm with hm | hst
    · exact ih hm
    · exact stage_le (by omega) hm

theorem stage_subset_perfect (k : Nat) : stage p s k ⊆ perfectModel p s :=
  fun _ hf => Set.mem_iUnion.mpr ⟨k, hf⟩

section

variable (h : Layers p.rules s)

include h

/-- A negated goal of a rule is read in the stage below as in the model. -/
theorem holds_stage_iff {rule : Rule} (hr : rule ∈ p.rules) {n : Atom}
    (hn : .Negative n ∈ rule.body) {σ : Valuation} :
    Holds σ n (stage p s (s.stratum rule.head.predicate)) ↔ Holds σ n (perfectModel p s) := by
  constructor
  · exact fun hh => hh.mono fun f hf _ => stage_subset_perfect _ hf
  · intro hh
    apply hh.mono
    intro f hf hp
    apply stage_complete hf
    rw [hp]
    exact h.negative rule hr n hn

theorem perfect_stable : Stable p (perfectModel p s) := by
  apply eq_least
  · exact stage_subset_perfect 0
  · intro f hf
    obtain ⟨k, hk⟩ := Set.mem_iUnion.mp hf
    clear hf
    induction k generalizing f with
    | zero => exact base_subset hk
    | succ k ih =>
      refine least_subset (fun f hf => ih hf) ?_ hk
      rintro i ⟨rule, hr, σ, hp, hh, hbody, hpos, hneg⟩ hb
      obtain ⟨hrule, hst⟩ := mem_rules_of_stratum.mp hr
      apply least_closed _ hb
      refine ⟨rule, hrule, σ, hp, hh, hbody, hpos, ?_⟩
      intro n hn
      rw [← holds_stage_iff h hrule hn, hst]
      exact hneg n hn
  · rintro i ⟨rule, hr, σ, hp, hh, hbody, hpos, hneg⟩ hb
    apply stage_subset_perfect (s.stratum rule.head.predicate + 1)
    have hi : i ∈ instances (rules_of_stratum s p.rules (s.stratum rule.head.predicate))
        (stage p s (s.stratum rule.head.predicate)) := by
      refine ⟨rule, mem_rules_of_stratum.mpr ⟨hr, rfl⟩, σ, hp, hh, hbody, hpos, ?_⟩
      intro n hn
      rw [holds_stage_iff h hr hn]
      exact hneg n hn
    have hin : ∀ g ∈ i.body, g ∈ stage p s (s.stratum rule.head.predicate + 1) := by
      intro g hg
      apply stage_complete (hb g hg)
      rw [hbody] at hg
      obtain ⟨a, ha, hpa, _⟩ := hg
      rw [← hpa]
      exact Nat.lt_succ_of_le (h.positive rule hr a ha)
    exact least_closed hi hin

theorem Stable.subset_below {M' : Set Fact} (hM : Stable p M)
    (hM' : Stable p M') (k : Nat) (hlow : ∀ f, s.stratum f.1 < k → (f ∈ M ↔ f ∈ M')) (hf : f ∈ M)
    (hk : s.stratum f.1 ≤ k) : f ∈ M' := by
  refine hM.induct {f | s.stratum f.1 ≤ k → f ∈ M'} ?_ ?_ hf hk
  · exact fun g hg _ => hM'.stated hg
  · intro rule hr σ g hfires hgk
    have hhead : s.stratum rule.head.predicate ≤ k := by rwa [hfires.predicate]
    refine hM'.closed hr (σ := σ) ⟨hfires.predicate, hfires.head, ?_, ?_⟩
    · intro a ha
      refine (hfires.positive a ha).mono ?_
      intro d hd hp
      refine hd.2 ?_
      rw [hp]
      exact (h.positive rule hr a ha).trans hhead
    · intro n hn hholds
      refine hfires.negative n hn (hholds.mono ?_)
      intro d hd hp
      refine (hlow d ?_).mpr hd
      rw [hp]
      exact lt_of_lt_of_le (h.negative rule hr n hn) hhead

theorem Stable.unique {M' : Set Fact} (hM : Stable p M) (hM' : Stable p M') : M = M' := by
  have hagree : ∀ k f, s.stratum f.1 < k → (f ∈ M ↔ f ∈ M') := by
    intro k
    induction k with
    | zero => exact fun f hf => absurd hf (Nat.not_lt_zero _)
    | succ k ih =>
      intro f hf
      have hk : s.stratum f.1 ≤ k := Nat.lt_succ_iff.mp hf
      exact ⟨fun hm => hM.subset_below h hM' k ih hm hk,
        fun hm => hM'.subset_below h hM k (fun g hg => (ih g hg).symm) hm hk⟩
  ext f
  exact hagree _ f (Nat.lt_succ_self _)

end

/-- A program whose graph has no cycle through negation is evaluated, and the
tuples that come out are stable. -/
theorem evaluate_stable (hashes : Hashes) (p : Program) (hb : p.NoPipeline)
    (hg : p.GroundFacts) (hs : ∀ rule ∈ p.rules, Safe rule) (hc : ¬ p.CycleThroughNegation) :
    ∃ N db, (∀ fuel, N ≤ fuel → evaluate_stratified fuel hashes p = .ok (.ok db)) ∧
      Stable p db.facts := by
  obtain ⟨N₀, s, hrun₀, hfit⟩ := compute_strata_accepts hashes.edges hc
  obtain ⟨N, db, hrun, hperfect⟩ :=
    evaluate_perfect hashes p hb hg hs N₀ s (hrun₀ N₀ (le_refl _))
  refine ⟨N, db, hrun, ?_⟩
  rw [hperfect]
  exact perfect_stable hfit.layers

end

end paideia_as_shell_datalog
