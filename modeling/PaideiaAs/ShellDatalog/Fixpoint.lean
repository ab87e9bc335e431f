-- The loop of a stratum ends, as every round with something new takes one
-- more fact from a finite universe, and what it ends with is the least set
-- over the tuples it began with that the rules of the stratum keep.
import PaideiaAs.ShellDatalog.Rounds
import Mathlib.Data.Set.Finite.List

open Closure

namespace paideia_as_shell_datalog

/-! ## The universe of a stratum -/

/-- The tuples of a length over some values. -/
theorem finite_tuples (V : Set Value) (hV : V.Finite) (n : Nat) :
    {t : Tuple | t.length = n ∧ ∀ v ∈ t, v ∈ V}.Finite := by
  have hfin : Finite {v // v ∈ V} := hV
  have himage := (List.finite_length_eq {v // v ∈ V} n).image (List.map Subtype.val)
  apply himage.subset
  rintro t ⟨hl, ht⟩
  refine ⟨t.attachWith (· ∈ V) ht, ?_, ?_⟩
  · simp [hl]
  · simp

/-- The values that the rules and the facts speak of. -/
def valuesOf (rules : List Rule) (db : Database) : Set Value :=
  {v | (∃ rule ∈ rules, Term.Const v ∈ rule.head.terms) ∨ ∃ f ∈ db, v ∈ f.2}

theorem valuesOf_finite (rules : List Rule) (db : Database) : (valuesOf rules db).Finite := by
  have hconst : (Term.Const).Injective := fun _ _ h => Term.Const.inj h
  have hhead : {v | ∃ rule ∈ rules, Term.Const v ∈ rule.head.terms}.Finite := by
    have hterms : {u | u ∈ rules.flatMap fun rule => rule.head.terms}.Finite := List.finite_toSet _
    apply (hterms.preimage hconst.injOn).subset
    rintro v ⟨rule, hr, hv⟩
    exact List.mem_flatMap.mpr ⟨rule, hr, hv⟩
  have hdb : {v | ∃ f ∈ db, v ∈ f.2}.Finite := by
    have hvalues : {v | v ∈ db.flatMap fun f => f.2}.Finite := List.finite_toSet _
    apply hvalues.subset
    rintro v ⟨f, hf, hv⟩
    exact List.mem_flatMap.mpr ⟨f, hf, hv⟩
  exact hhead.union hdb

/-- The facts of the start, and the tuples over the known values for the
heads of the rules. -/
def herbrand (rules : List Rule) (db : Database) : Set Fact :=
  {f | f ∈ db ∨ ∃ rule ∈ rules, rule.head.predicate = f.1 ∧ f.2.length = rule.head.arity ∧
    ∀ v ∈ f.2, v ∈ valuesOf rules db}

theorem herbrand_finite (rules : List Rule) (db : Database) : (herbrand rules db).Finite := by
  have hdb : {f | f ∈ db}.Finite := List.finite_toSet db
  have hheads : (⋃ rule ∈ {rule | rule ∈ rules}, Prod.mk rule.head.predicate ''
      {t : Tuple | t.length = rule.head.arity ∧ ∀ v ∈ t, v ∈ valuesOf rules db}).Finite := by
    apply (List.finite_toSet rules).biUnion
    intro rule _
    exact (finite_tuples _ (valuesOf_finite rules db) _).image _
  apply (hdb.union hheads).subset
  rintro ⟨q, t⟩ (hf | ⟨rule, hr, rfl, hl, hv⟩)
  · exact .inl hf
  · right
    simp only [Set.mem_iUnion]
    exact ⟨rule, hr, t, ⟨hl, hv⟩, rfl⟩

theorem herbrand_values {rules : List Rule} {db : Database} {f : Fact}
    (hf : f ∈ herbrand rules db) : ∀ v ∈ f.2, v ∈ valuesOf rules db := by
  rcases hf with hf | ⟨_, _, _, _, hv⟩
  · exact fun v hv => .inr ⟨f, hf, hv⟩
  · exact hv

theorem instantiate_values {σ : Valuation} {a : Atom} {t : Tuple} (h : a.instantiate σ = some t) :
    (∀ v ∈ t, Term.Const v ∈ a.terms ∨ ∃ x ∈ a.vars, σ x = v) ∧ ∀ x ∈ a.vars, σ x ∈ t := by
  have key : ∀ (terms : List Term) (t : Tuple),
      List.Forall₂ (fun u v => u.eval σ = some v) terms t →
      (∀ v ∈ t, Term.Const v ∈ terms ∨ ∃ x, Term.Var x ∈ terms ∧ σ x = v) ∧
        ∀ x, Term.Var x ∈ terms → σ x ∈ t := by
    intro terms t h
    induction h with
    | nil => simp
    | @cons u v terms t hu _ ih =>
      simp only [List.mem_cons]
      constructor
      · rintro w (rfl | hw)
        · cases u with
          | Const c =>
            cases hu
            exact .inl (.inl rfl)
          | Var x =>
            cases hu
            exact .inr ⟨x, .inl rfl, rfl⟩
          | Bound x => cases hu
        · rcases ih.1 w hw with h | ⟨x, hx, hσ⟩
          · exact .inl (.inr h)
          · exact .inr ⟨x, .inr hx, hσ⟩
      · rintro x (hx | hx)
        · rw [← hx] at hu
          cases hu
          exact .inl rfl
        · exact .inr (ih.2 x hx)
  obtain ⟨h₁, h₂⟩ := key _ _ (instantiate_eq.mp h)
  refine ⟨?_, fun x hx => h₂ x (Atom.mem_vars.mp hx)⟩
  intro v hv
  rcases h₁ v hv with h | ⟨x, hx, hσ⟩
  · exact .inl h
  · exact .inr ⟨x, Atom.mem_vars.mpr hx, hσ⟩

/-- What a rule gives from facts of the universe is in the universe. -/
theorem fires_herbrand {rules : List Rule} {db : Database} {rule : Rule} (hr : rule ∈ rules)
    (hs : Safe rule) {S neg : Set Fact} (hS : S ⊆ herbrand rules db) {σ : Valuation} {f : Fact}
    (h : Fires rule S neg σ f) : f ∈ herbrand rules db := by
  right
  refine ⟨rule, hr, h.predicate, instantiate_length h.head, ?_⟩
  intro v hv
  rcases (instantiate_values h.head).1 v hv with hc | ⟨x, hx, rfl⟩
  · exact .inl ⟨rule, hr, hc⟩
  · obtain ⟨a, ha, hxa⟩ := hs.head x hx
    obtain ⟨t, ht, htS⟩ := h.positive a ha
    exact herbrand_values (hS htS) _ ((instantiate_values ht).2 x hxa)

/-! ## The loop -/

section

variable {rules : List Rule} {base : Set Fact} {db delta : Database}

/-- No negated goal of the rules is on the predicate of a head. -/
def NegatesLower (rules : List Rule) : Prop :=
  ∀ rule ∈ rules, ∀ n, .Negative n ∈ rule.body → ∀ r ∈ rules, r.head.predicate ≠ n.predicate

/-- The state between two rounds, over the tuples `base` of the start. -/
structure Between (rules : List Rule) (base : Set Fact) (db delta : Database) : Prop where
  grown : base ⊆ db.facts
  least : db.facts ⊆ least (instances rules base) base
  part : ∀ g ∈ delta, g ∈ db
  covered : Covered (instances rules base) db.facts delta.facts
  heads : ∀ f ∈ db, f ∈ base ∨ ∃ rule ∈ rules, rule.head.predicate = f.1

/-- The tables of negated goals are those of the start. -/
theorem Between.fires_iff (h : Between rules base db delta) (hn : NegatesLower rules)
    {rule : Rule} (hr : rule ∈ rules) {σ : Valuation} {f : Fact} :
    Fires rule db.facts db.facts σ f ↔ Fires rule db.facts base σ f := by
  have hsame : ∀ n, .Negative n ∈ rule.body → (Holds σ n db.facts ↔ Holds σ n base) := by
    intro n hneg
    constructor
    · intro hh
      apply hh.mono
      intro g hg hp
      rcases h.heads g hg with hb | ⟨r, hr', hrp⟩
      · exact hb
      · exact absurd (hrp.trans hp) (hn rule hr n hneg r hr')
    · intro hh
      exact hh.mono fun g hg _ => h.grown hg
  constructor
  · intro hf
    exact ⟨hf.predicate, hf.head, hf.positive, fun n hneg hh =>
      hf.negative n hneg ((hsame n hneg).mpr hh)⟩
  · intro hf
    exact ⟨hf.predicate, hf.head, hf.positive, fun n hneg hh =>
      hf.negative n hneg ((hsame n hneg).mp hh)⟩

theorem Between.round (hash : HashOrder Tuple) (h : Between rules base db delta) (hn : NegatesLower rules)
    (hs : ∀ rule ∈ rules, Safe rule) :
    Round (instances rules base) db.facts delta.facts (turn hash rules db delta).facts where
  sound := by
    intro f hf
    obtain ⟨_, rule, hr, σ, hfires, _⟩ := (mem_turn hs h.part).mp hf
    exact instances_iff.mpr ⟨rule, hr, σ, (h.fires_iff hn hr).mp hfires⟩
  complete := by
    rintro i ⟨rule, hr, σ, hp, hh, hb, hpos, hneg⟩ hbody ⟨g, hg, hgd⟩
    by_cases hdb : i.head ∈ db.facts
    · exact .inl hdb
    · right
      have hfires : Fires rule db.facts base σ i.head := by
        refine ⟨hp, hh, ?_, hneg⟩
        intro a ha
        obtain ⟨t, ht⟩ := Option.isSome_iff_exists.mp (hpos a ha)
        refine ⟨t, ht, hbody _ ?_⟩
        rw [hb]
        exact ⟨a, ha, rfl, ht⟩
      rw [hb] at hg
      obtain ⟨a, ha, hpa, hta⟩ := hg
      refine (mem_turn hs h.part).mpr ⟨hdb, rule, hr, σ, (h.fires_iff hn hr).mpr hfires, a, ha, ?_⟩
      refine ⟨g.2, hta, ?_⟩
      rw [hpa]
      exact hgd
  fresh := by
    intro f hf
    exact ((mem_turn hs h.part).mp hf).1

theorem facts_merge : (merge db delta).facts = db.facts ∪ delta.facts := by
  ext f
  exact mem_merge

theorem Between.next (hash : HashOrder Tuple) (h : Between rules base db delta) (hn : NegatesLower rules)
    (hs : ∀ rule ∈ rules, Safe rule) :
    Between rules base (merge db (turn hash rules db delta)) (turn hash rules db delta) := by
  have hround := h.round hash hn hs
  constructor
  · rw [facts_merge]
    exact fun f hf => .inl (h.grown hf)
  · rw [facts_merge]
    exact hround.subset_least h.least
  · exact fun g hg => mem_merge.mpr (.inr hg)
  · rw [facts_merge]
    exact h.covered.round hround
  · intro f hf
    rcases mem_merge.mp hf with hf | hf
    · exact h.heads f hf
    · obtain ⟨_, rule, hr, σ, hfires, _⟩ := (mem_turn hs h.part).mp hf
      exact .inr ⟨rule, hr, hfires.predicate⟩

/-- The loop from a state between two rounds: with fuel for the facts of the
universe that are not there it ends with the least set. -/
theorem seminaive_loop_least (hash : HashOrder Tuple) (hn : NegatesLower rules) (hs : ∀ rule ∈ rules, Safe rule)
    {db₀ : Database} (U : Finset Fact) (hU : ∀ f, f ∈ U ↔ f ∈ herbrand rules db₀) (k : Nat)
    (db delta : Database) (h : Between rules base db delta) (hdb : db.facts ⊆ herbrand rules db₀)
    (hk : (U \ db.toFinset).card = k) :
    ∃ db', (∀ fuel, k < fuel → seminaive_loop hash rules fuel db delta = .ok db') ∧
      db'.facts = least (instances rules base) base := by
  induction k using Nat.strong_induction_on generalizing db delta with
  | _ k ih =>
    have hnext := h.next hash hn hs
    by_cases hempty : (turn hash rules db delta).length = 0
    · refine ⟨merge db (turn hash rules db delta), ?_, ?_⟩
      · intro fuel hfuel
        obtain ⟨fuel, rfl⟩ : ∃ m, fuel = m + 1 := ⟨fuel - 1, by omega⟩
        rw [seminaive_loop_succ, if_pos hempty]
      · have hcov := hnext.covered
        have hnone : (turn hash rules db delta).facts = ∅ := by
          rw [List.length_eq_zero_iff.mp hempty]
          unfold Database.facts
          simp
        rw [hnone] at hcov
        exact hcov.eq_least hnext.grown hnext.least
    · have hin : ∀ f ∈ turn hash rules db delta, f ∉ db ∧ f ∈ herbrand rules db₀ := by
        intro f hf
        obtain ⟨hnot, rule, hr, σ, hfires, _⟩ := (mem_turn hs h.part).mp hf
        exact ⟨hnot, fires_herbrand hr (hs rule hr) hdb hfires⟩
      have hsub : (merge db (turn hash rules db delta)).facts ⊆ herbrand rules db₀ := by
        rw [facts_merge]
        rintro f (hf | hf)
        · exact hdb hf
        · exact (hin f hf).2
      have hlt : (U \ (merge db (turn hash rules db delta)).toFinset).card < k := by
        rw [← hk]
        apply Finset.card_lt_card
        obtain ⟨f, hf⟩ := List.exists_mem_of_length_pos (Nat.pos_of_ne_zero hempty)
        rw [Finset.ssubset_iff_of_subset]
        · refine ⟨f, ?_, ?_⟩
          · rw [Finset.mem_sdiff, hU, List.mem_toFinset]
            exact ⟨(hin f hf).2, (hin f hf).1⟩
          · rw [Finset.mem_sdiff, List.mem_toFinset, mem_merge]
            exact fun hc => hc.2 (.inr hf)
        · intro g hg
          rw [Finset.mem_sdiff, List.mem_toFinset, mem_merge] at hg
          rw [Finset.mem_sdiff, List.mem_toFinset]
          exact ⟨hg.1, fun hc => hg.2 (.inl hc)⟩
      obtain ⟨db', hrun, hleast⟩ := ih _ hlt _ _ hnext hsub rfl
      refine ⟨db', ?_, hleast⟩
      intro fuel hfuel
      obtain ⟨fuel, rfl⟩ : ∃ m, fuel = m + 1 := ⟨fuel - 1, by omega⟩
      rw [seminaive_loop_succ, if_neg hempty]
      exact hrun fuel (by omega)

/-- The rules of a stratum, run over a database whose negated tables they do
not touch: the loop ends with the least set over the database. -/
theorem seminaive_fixpoint_least (hash : HashOrder Tuple) (hn : NegatesLower rules)
    (hs : ∀ rule ∈ rules, Safe rule) (db : Database) :
    ∃ N db', (∀ fuel, N ≤ fuel → seminaive_fixpoint hash fuel rules db = .ok db') ∧
      db'.facts = least (instances rules db.facts) db.facts := by
  have hstart : Between rules db.facts db db := by
    refine ⟨fun _ hf => hf, base_subset, fun _ hg => hg, ?_, fun f hf => .inl hf⟩
    apply Covered.start
    rintro i ⟨rule, hr, σ, _, _, hb, hpos, _⟩
    obtain ⟨a, ha⟩ := (hs rule hr).pivot
    obtain ⟨t, ht⟩ := Option.isSome_iff_exists.mp (hpos a ha)
    rw [hb]
    exact ⟨(a.predicate, t), a, ha, rfl, ht⟩
  obtain ⟨db', hrun, hleast⟩ := seminaive_loop_least hash hn hs
    (herbrand_finite rules db).toFinset (by simp) _ db db hstart (fun f hf => .inl hf) rfl
  exact ⟨_, db', fun fuel hfuel => hrun fuel hfuel, hleast⟩

end

end paideia_as_shell_datalog
