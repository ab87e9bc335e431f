-- The perfect model of a stratified program, stratum by stratum, and that
-- the evaluator computes it.
import PaideiaAs.ShellDatalog.Fixpoint
import PaideiaAs.ShellDatalog.Strata

open Closure

namespace paideia_as_shell_datalog

open Outcome (bind_eq_ok ok_bind)

/-! ## The perfect model -/

def Program.stated (p : Program) : Set Fact :=
  {f | ∃ a ∈ p.facts, a.predicate = f.1 ∧ a.as_ground = some f.2}

/-- The model with the strata below `k` complete: first the stated facts,
then for each stratum the least fixpoint of the immediate consequences of its
rules over what there is, with negation read from what there is. -/
noncomputable def stage (p : Program) (s : Strata) : Nat → Set Fact
  | 0 => p.stated
  | k + 1 => least (instances (rules_of_stratum s p.rules k) (stage p s k)) (stage p s k)

noncomputable def perfectModel (p : Program) (s : Strata) : Set Fact := ⋃ k, stage p s k

def Program.NoPipeline (p : Program) : Prop := ∀ a ∈ p.atoms, ∀ x, Term.Bound x ∉ a.terms

def Program.GroundFacts (p : Program) : Prop := ∀ a ∈ p.facts, a.as_ground.isSome

/-- A goal is no higher than the head of its rule, and a negated goal is lower. -/
structure Layers (rules : List Rule) (s : Strata) : Prop where
  positive : ∀ rule ∈ rules, ∀ a, .Positive a ∈ rule.body →
    s.stratum a.predicate ≤ s.stratum rule.head.predicate
  negative : ∀ rule ∈ rules, ∀ a, .Negative a ∈ rule.body →
    s.stratum a.predicate < s.stratum rule.head.predicate

variable {s : Strata}

theorem Stratifies.layers {p : Program} (h : Stratifies p s) : Layers p.rules s :=
  ⟨h.positive, h.negative⟩

/-- Layers rule out a cycle through negation. -/
theorem Layers.acyclic {p : Program} (h : Layers p.rules s) : ¬ p.CycleThroughNegation := by
  have hup : ∀ src tgt neg, p.Depends src tgt neg → s.stratum src ≤ s.stratum tgt ∧
      (neg = true → s.stratum src < s.stratum tgt) := by
    rintro src tgt neg ⟨rule, hr, goal, hg, rfl, rfl, rfl⟩
    cases goal with
    | Positive a => exact ⟨h.positive rule hr a hg, nofun⟩
    | Negative a => exact ⟨(h.negative rule hr a hg).le, fun _ => h.negative rule hr a hg⟩
  have hpath : ∀ u v, p.Path u v → s.stratum u ≤ s.stratum v := by
    intro u v huv
    induction huv with
    | refl => exact le_refl _
    | tail _ hstep ih =>
      obtain ⟨neg, hstep⟩ := hstep
      exact ih.trans (hup _ _ _ hstep).1
  rintro ⟨src, tgt, hd, hback⟩
  exact absurd ((hup src tgt true hd).2 rfl) (not_lt.mpr (hpath tgt src hback))

section

variable {p : Program} {s : Strata}

theorem stage_le {a b : Nat} (h : a ≤ b) : stage p s a ⊆ stage p s b := by
  induction h with
  | refl => exact fun _ hf => hf
  | step _ ih => exact fun f hf => base_subset (ih hf)

/-- A stratum without rules adds nothing. -/
theorem stage_skip {a b : Nat} (h : a ≤ b)
    (hno : ∀ rule ∈ p.rules, s.stratum rule.head.predicate < a ∨ b ≤ s.stratum rule.head.predicate) :
    stage p s b = stage p s a := by
  induction h with
  | refl => rfl
  | @step b hab ih =>
    have hempty : rules_of_stratum s p.rules b = [] := by
      unfold rules_of_stratum
      rw [List.filter_eq_nil_iff]
      intro rule hr
      rw [decide_eq_true_eq]
      intro hb
      have hst : s.stratum rule.head.predicate = b := hb
      have hle : a ≤ b := hab
      rcases hno rule hr with h | h <;> omega
    rw [← ih]
    · apply Set.Subset.antisymm
      · apply least_subset (fun _ hf => hf)
        rintro i ⟨rule, hr, _⟩
        rw [hempty] at hr
        cases hr
      · exact base_subset
    · intro rule hr
      rcases hno rule hr with h | h
      · exact .inl h
      · exact .inr (by omega)

/-- Above all the strata of the rules the stages are the model. -/
theorem stage_eq_perfect {m : Nat} (h : ∀ rule ∈ p.rules, s.stratum rule.head.predicate < m) :
    stage p s m = perfectModel p s := by
  unfold perfectModel
  apply Set.Subset.antisymm
  · exact fun f hf => Set.mem_iUnion.mpr ⟨m, hf⟩
  · intro f hf
    obtain ⟨k, hk⟩ := Set.mem_iUnion.mp hf
    by_cases hkm : k ≤ m
    · exact stage_le hkm hk
    · rw [stage_skip (by omega : m ≤ k) fun rule hr => .inl (h rule hr)] at hk
      exact hk

theorem mem_rules_of_stratum {rules : List Rule} {k : Nat} {rule : Rule} :
    rule ∈ rules_of_stratum s rules k ↔
      rule ∈ rules ∧ s.stratum rule.head.predicate = k := by
  unfold rules_of_stratum Strata.stratum
  rw [List.mem_filter, decide_eq_true_eq]

theorem negatesLower_of_stratum (h : Layers p.rules s) (k : Nat) :
    NegatesLower (rules_of_stratum s p.rules k) := by
  intro rule hr n hn r hr' he
  obtain ⟨hrule, hk⟩ := mem_rules_of_stratum.mp hr
  obtain ⟨_, hk'⟩ := mem_rules_of_stratum.mp hr'
  have hlt := h.negative rule hrule n hn
  rw [← he, hk, hk'] at hlt
  exact lt_irrefl _ hlt

/-- The loop over strata from `a` on, with the strata below complete. -/
theorem strata_loop (hash : HashOrder Tuple) (h : Layers p.rules s)
    (hs : ∀ rule ∈ p.rules, Safe rule) (ks : List Nat) (hks : ks.Pairwise (· < ·)) (a : Nat)
    (ha : ∀ k ∈ ks, a ≤ k)
    (hall : ∀ rule ∈ p.rules, a ≤ s.stratum rule.head.predicate →
      s.stratum rule.head.predicate ∈ ks)
    (db : Database) (hdb : db.facts = stage p s a) :
    ∃ N db', (∀ fuel, N ≤ fuel → ks.foldlM (fun db k =>
        seminaive_fixpoint hash fuel (rules_of_stratum s p.rules k) db) db = .ok db') ∧
      db'.facts = perfectModel p s := by
  induction ks generalizing a db with
  | nil =>
    refine ⟨0, db, fun _ _ => rfl, ?_⟩
    rw [hdb]
    apply stage_eq_perfect
    intro rule hr
    by_contra hle
    exact absurd (hall rule hr (by omega)) List.not_mem_nil
  | cons k ks ih =>
    rw [List.pairwise_cons] at hks
    have hak : a ≤ k := ha k (.head _)
    -- no rule is between the last stratum and this one
    have hskip : stage p s k = stage p s a := by
      apply stage_skip hak
      intro rule hr
      by_cases hlt : s.stratum rule.head.predicate < a
      · exact .inl hlt
      · rcases List.mem_cons.mp (hall rule hr (by omega)) with he | hm
        · exact .inr (le_of_eq he.symm)
        · exact .inr (le_of_lt (hks.1 _ hm))
    obtain ⟨N₁, db₁, hrun₁, hleast⟩ := seminaive_fixpoint_least hash (negatesLower_of_stratum h k)
      (fun rule hr => hs rule (mem_rules_of_stratum.mp hr).1) db
    have hdb₁ : db₁.facts = stage p s (k + 1) := by
      rw [hleast, hdb, ← hskip]
      rfl
    obtain ⟨N₂, db₂, hrun₂, hperfect⟩ := ih hks.2 (k + 1) (fun j hj => hks.1 j hj) (by
        intro rule hr hlt
        rcases List.mem_cons.mp (hall rule hr (by omega)) with he | hm
        · omega
        · exact hm) db₁ hdb₁
    refine ⟨max N₁ N₂, db₂, ?_, hperfect⟩
    intro fuel hfuel
    rw [List.foldlM_cons, hrun₁ fuel (by omega), ok_bind]
    exact hrun₂ fuel (by omega)

theorem rule_strata_sorted (rules : List Rule) : (rule_strata s rules).Pairwise (· < ·) := by
  have hnodup : (rule_strata s rules).Nodup := by
    unfold rule_strata
    exact ((List.perm_insertionSort _ _).nodup_iff).mpr (List.nodup_dedup _)
  have hsorted : (rule_strata s rules).Pairwise (· ≤ ·) := by
    unfold rule_strata
    exact List.pairwise_insertionSort _ _
  exact hsorted.imp₂ (fun _ _ hle hne => lt_of_le_of_ne hle hne) hnodup

theorem mem_rule_strata {rules : List Rule} {rule : Rule} (hr : rule ∈ rules) :
    s.stratum rule.head.predicate ∈ rule_strata s rules := by
  unfold rule_strata
  rw [List.mem_insertionSort, List.mem_dedup]
  exact List.mem_map.mpr ⟨rule, hr, rfl⟩

end

/-! ## The evaluator -/

section

variable {p : Program}

theorem noPipeline_iff : p.NoPipeline ↔ p.atoms.forM reject_bound = .ok () := by
  rw [forM_reject_bound]
  unfold Program.NoPipeline
  simp only [reject_bound_ok]

theorem seed_facts_ok (facts : List Atom) (hg : ∀ a ∈ facts, a.as_ground.isSome) (db : Database) :
    ∃ db', seed_facts db facts = .ok db' ∧
      ∀ f, f ∈ db' ↔ f ∈ db ∨ ∃ a ∈ facts, a.predicate = f.1 ∧ a.as_ground = some f.2 := by
  induction facts generalizing db with
  | nil => exact ⟨db, rfl, by simp⟩
  | cons a facts ih =>
    obtain ⟨t, ht⟩ := Option.isSome_iff_exists.mp (hg a (.head _))
    obtain ⟨db', hrun, hmem⟩ :=
      ih (fun b hb => hg b (.tail _ hb)) (db.insert a.predicate t)
    refine ⟨db', ?_, ?_⟩
    · rw [seed_facts, ht, Outcome.expect_some, ok_bind, hrun]
    · rintro ⟨q, u⟩
      rw [hmem, mem_insert (a.predicate, t), or_assoc]
      simp only [List.mem_cons, exists_eq_or_imp, ht, Prod.mk.injEq, Option.some.injEq]
      rw [eq_comm, @eq_comm _ u]

theorem foldlM_fuel {α : Type} (f : Nat → Tarjan → α → Outcome Tarjan) (l : List α)
    (hf : ∀ fuel t x t', f fuel t x = .ok t' → f (fuel + 1) t x = .ok t') (fuel : Nat) (t t' : Tarjan)
    (h : l.foldlM (f fuel) t = .ok t') : l.foldlM (f (fuel + 1)) t = .ok t' := by
  induction l generalizing t with
  | nil => exact h
  | cons x l ih =>
    rw [List.foldlM_cons] at h ⊢
    obtain ⟨t₁, h₁, h₂⟩ := bind_eq_ok.mp h
    rw [hf _ _ _ _ h₁, ok_bind]
    exact ih t₁ h₂

theorem run_fuel {adj : Adj} (fuel : Nat) (t t' : Tarjan) (h : Tarjan.run adj fuel t = .ok t') :
    Tarjan.run adj (fuel + 1) t = .ok t' := by
  induction fuel generalizing t with
  | zero => cases h
  | succ fuel ih =>
    rw [Tarjan.run] at h ⊢
    cases hf : t.frames with
    | nil =>
      rw [hf] at h
      exact h
    | cons f fs =>
      rw [hf] at h
      simp only at h ⊢
      obtain ⟨t₁, h₁, h₂⟩ := bind_eq_ok.mp h
      rw [h₁, ok_bind]
      exact ih t₁ h₂

theorem compute_strata_fuel {hash : HashOrder SccEdge} {fuel fuel' : Nat} (hle : fuel ≤ fuel')
    {r : Except StratificationError Strata} (h : compute_strata fuel hash p = .ok r) :
    compute_strata fuel' hash p = .ok r := by
  induction hle with
  | refl => exact h
  | @step k _ ih =>
    unfold compute_strata at ih ⊢
    obtain ⟨sccs, hs, hrest⟩ := bind_eq_ok.mp ih
    have hs' : tarjan_sccs (k + 1) p.pred_list.length p.adj = .ok sccs := by
      unfold tarjan_sccs at hs ⊢
      obtain ⟨t, ht, hout⟩ := bind_eq_ok.mp hs
      have hstarts : ∀ fuel t x t', Tarjan.from_start fuel p.adj t x = .ok t' →
          Tarjan.from_start (fuel + 1) p.adj t x = .ok t' := by
        intro fuel t x t' hstart
        unfold Tarjan.from_start at hstart ⊢
        split
        · rename_i hsome
          rw [if_pos hsome] at hstart
          exact hstart
        · rename_i hnone
          rw [if_neg hnone] at hstart
          exact run_fuel fuel _ _ hstart
      rw [foldlM_fuel (fun fuel => Tarjan.from_start fuel p.adj) _ hstarts k _ _ ht, ok_bind]
      exact hout
    simp only [Nat.succ_eq_add_one, hs', ok_bind]
    exact hrest

theorem compute_strata_stratifies {hash : HashOrder SccEdge} {fuel : Nat} {s : Strata}
    (h : compute_strata fuel hash p = .ok (.ok s)) : Stratifies p s := by
  by_cases hc : p.CycleThroughNegation
  · obtain ⟨N, e, hrun⟩ := compute_strata_rejects hash hc
    have h₁ := compute_strata_fuel (le_max_left fuel N) h
    rw [hrun _ (le_max_right fuel N)] at h₁
    cases h₁
  · obtain ⟨N, s', hrun, hfit⟩ := compute_strata_accepts hash hc
    have h₁ := compute_strata_fuel (le_max_left fuel N) h
    rw [hrun _ (le_max_right fuel N)] at h₁
    cases h₁
    exact hfit

end

/-- The strata run over the stated facts end with the perfect model. -/
theorem run_strata (hash : HashOrder Tuple) (p : Program) (h : Layers p.rules s)
    (hs : ∀ rule ∈ p.rules, Safe rule) (db₀ : Database) (hdb₀ : db₀.facts = p.stated) :
    ∃ N db, db.facts = perfectModel p s ∧ ∀ fuel, N ≤ fuel →
      (if p.rules.isEmpty then .ok (.ok db₀)
        else do
          let db ← (rule_strata s p.rules).foldlM
            (fun db k => seminaive_fixpoint hash fuel (rules_of_stratum s p.rules k) db) db₀
          .ok (.ok db) : Outcome (Except EvalError Database)) = .ok (.ok db) := by
  obtain ⟨N, db, hrun, hperfect⟩ := strata_loop hash h hs (rule_strata s p.rules)
    (rule_strata_sorted p.rules) 0 (fun _ _ => Nat.zero_le _)
    (fun rule hr _ => mem_rule_strata hr) db₀ hdb₀
  refine ⟨N, db, hperfect, ?_⟩
  intro fuel hfuel
  have hfold := hrun fuel hfuel
  split
  · rename_i hempty
    rw [List.isEmpty_iff] at hempty
    rw [hempty] at hfold
    cases hfold
    rfl
  · rw [hfold]
    rfl

/-- The evaluation ends with the tuples of the perfect model. -/
theorem evaluate_perfect (hashes : Hashes) (p : Program) (hb : p.NoPipeline)
    (hg : p.GroundFacts) (hs : ∀ rule ∈ p.rules, Safe rule) (fuel₀ : Nat) (s : Strata)
    (hstrata : compute_strata fuel₀ hashes.edges p = .ok (.ok s)) :
    ∃ N db, (∀ fuel, N ≤ fuel → evaluate_stratified fuel hashes p = .ok (.ok db)) ∧
      db.facts = perfectModel p s := by
  have hfit := compute_strata_stratifies hstrata
  obtain ⟨db₀, hseed, hmem₀⟩ := seed_facts_ok p.facts hg []
  have hdb₀ : db₀.facts = p.stated := by
    ext f
    exact (hmem₀ f).trans (by simp [Program.stated])
  obtain ⟨N, db, hperfect, hrun⟩ := run_strata hashes.tuples p hfit.layers hs db₀ hdb₀
  refine ⟨max N fuel₀, db, ?_, hperfect⟩
  intro fuel hfuel
  unfold evaluate_stratified
  rw [noPipeline_iff.mp hb]
  simp only
  rw [compute_strata_fuel (by omega : fuel₀ ≤ fuel) hstrata, ok_bind]
  simp only
  rw [hseed, ok_bind]
  exact hrun fuel (by omega)

theorem mem_tuples {db : Database} {predicate : String} {arity : Nat} {t : Tuple} :
    t ∈ db.tuples predicate arity ↔ t.length = arity ∧ (predicate, t) ∈ db.facts := by
  unfold Database.tuples Database.facts
  simp only [List.mem_map, List.mem_filter, decide_eq_true_eq]
  constructor
  · rintro ⟨f, ⟨hf, rfl, hl⟩, rfl⟩
    exact ⟨hl, hf⟩
  · rintro ⟨hl, hf⟩
    exact ⟨(predicate, t), ⟨hf, rfl, hl⟩, rfl⟩

/-- The evaluator computes the perfect model: where the stratifier accepts a
program without pipeline interpolations, with ground facts and safe rules, the
evaluation ends, and the tuples of each table are those of the model. -/
theorem from_program_is_perfect (hashes : Hashes) (p : Program) (hb : p.NoPipeline)
    (hg : p.GroundFacts) (hs : ∀ rule ∈ p.rules, Safe rule) (fuel₀ : Nat) (s : Strata)
    (hstrata : compute_strata fuel₀ hashes.edges p = .ok (.ok s)) :
    ∃ N db, (∀ fuel, N ≤ fuel → Database.from_program fuel hashes p = .ok (.ok db)) ∧
      ∀ predicate arity t, t ∈ db.tuples predicate arity ↔
        t.length = arity ∧ (predicate, t) ∈ perfectModel p s := by
  obtain ⟨N, db, hrun, hperfect⟩ := evaluate_perfect hashes p hb hg hs fuel₀ s hstrata
  refine ⟨N, db, hrun, ?_⟩
  intro predicate arity t
  rw [mem_tuples, hperfect]

/-- Which of two elements is not a target of the other: a recursive rule and a
negated goal on what it defines. -/
def apart : Program where
  rules :=
    [⟨⟨"path", [.Var "x", .Var "y"]⟩, [.Positive ⟨"edge", [.Var "x", .Var "y"]⟩]⟩,
     ⟨⟨"path", [.Var "x", .Var "z"]⟩,
      [.Positive ⟨"path", [.Var "x", .Var "y"]⟩, .Positive ⟨"edge", [.Var "y", .Var "z"]⟩]⟩,
     ⟨⟨"apart", [.Var "x", .Var "y"]⟩,
      [.Positive ⟨"edge", [.Var "x", .Var "z"]⟩, .Negative ⟨"path", [.Var "y", .Var "x"]⟩,
       .Positive ⟨"edge", [.Var "w", .Var "y"]⟩]⟩]
  facts :=
    [⟨"edge", [.Const (.Num 1), .Const (.Num 2)]⟩, ⟨"edge", [.Const (.Num 2), .Const (.Num 3)]⟩]

def apartStrata : Strata := [("apart", 1), ("edge", 0), ("path", 0)]

theorem apart_is_perfect :
    ∃ N db, (∀ fuel, N ≤ fuel → Database.from_program fuel Hashes.plain apart = .ok (.ok db)) ∧
      ∀ predicate arity t, t ∈ db.tuples predicate arity ↔
        t.length = arity ∧ (predicate, t) ∈ perfectModel apart apartStrata :=
  from_program_is_perfect Hashes.plain apart (noPipeline_iff.mpr rfl)
    (by unfold Program.GroundFacts; decide) (by decide) 100 apartStrata (by decide +kernel)

/-- A rule with a pipeline interpolation in a body. -/
def piped : Program where
  rules := [⟨⟨"p", [.Var "x"]⟩, [.Positive ⟨"q", [.Var "x"]⟩, .Positive ⟨"r", [.Bound "limit"]⟩]⟩]
  facts := [⟨"q", [.Const (.Num 1)]⟩]

/-- The stratifier accepts the program, its rule is safe and its model holds
the stated fact, but the evaluation is refused. -/
theorem piped_is_refused :
    compute_strata 100 Hashes.plain.edges piped = .ok (.ok [("p", 0), ("q", 0), ("r", 0)]) ∧
      (∀ rule ∈ piped.rules, Safe rule) ∧ piped.GroundFacts ∧
      ("q", [Value.Num 1]) ∈ perfectModel piped [("p", 0), ("q", 0), ("r", 0)] ∧
      ∀ fuel, Database.from_program fuel Hashes.plain piped =
        .ok (.error (.UnresolvedPipelineValue "limit" ⟨"r", [.Bound "limit"]⟩)) := by
  refine ⟨by decide +kernel, by decide, by unfold Program.GroundFacts; decide, ?_, fun _ => rfl⟩
  apply Set.mem_iUnion.mpr
  exact ⟨0, ⟨"q", [.Const (.Num 1)]⟩, .head _, rfl, rfl⟩

end paideia_as_shell_datalog
