-- The session overlay: tuples that a session asserts go into the database
-- before the strata run. That is as if the program stated them, although the
-- strata are computed without them.
import PaideiaAs.ShellDatalog.Stable

open Closure

namespace paideia_as_shell_datalog

/-- The asserted tuples, each with the name of its predicate. The arity in the
key of a table is the length of its tuples, as in `Database`. -/
abbrev SessionEdb := List (String × Tuple)

/-- The second seed: the tuples of the session, in the order of its tables. -/
def seed_session (walk : HashOrder (String × Tuple)) (session : SessionEdb) (db : Database) :
    Database :=
  (walk.order session).foldl (fun db f => db.insert f.1 f.2) db

def evaluate_stratified_with_session (fuel : Nat) (hashes : Hashes)
    (walk : HashOrder (String × Tuple)) (p : Program) (session : SessionEdb) :
    Outcome (Except EvalError Database) :=
  match p.atoms.forM reject_bound with
  | .error e => .ok (.error e)
  | .ok () => do
    match ← compute_strata fuel hashes.edges p with
    | .error (.CycleThroughNegation cycle) => .ok (.error (.UnstratifiedNegation cycle))
    | .ok strata =>
      let db ← seed_facts [] p.facts
      let db := seed_session walk session db
      if p.rules.isEmpty then .ok (.ok db)
      else
        let db ← (rule_strata strata p.rules).foldlM
          (fun db k => seminaive_fixpoint hashes.tuples fuel (rules_of_stratum strata p.rules k) db) db
        .ok (.ok db)

/-- A tuple as the atom that states it. -/
def stating (f : String × Tuple) : Atom := ⟨f.1, f.2.map .Const⟩

/-- The program that states the tuples of the session as well. -/
def Program.with_facts (p : Program) (session : SessionEdb) : Program :=
  { p with facts := p.facts ++ session.map stating }

/-! ## The program with the facts -/

section

variable {p : Program} {session : SessionEdb}

theorem stating_ground (f : String × Tuple) : (stating f).as_ground = some f.2 := by
  unfold stating Atom.as_ground
  simp only
  induction f.2 with
  | nil => rfl
  | cons v t ih => rw [List.map_cons, List.mapM_cons, ih]; rfl

theorem stating_free (f : String × Tuple) : reject_bound (stating f) = .ok () := by
  rw [reject_bound_ok]
  intro x hx
  obtain ⟨v, -, hv⟩ := List.mem_map.mp hx
  cases hv

theorem with_facts_stated : (p.with_facts session).stated = p.stated ∪ {f | f ∈ session} := by
  ext f
  show (∃ a ∈ p.facts ++ session.map stating, _) ↔ _
  simp only [List.mem_append, List.mem_map, or_and_right, exists_or]
  refine or_congr Iff.rfl ?_
  refine ⟨?_, fun hf => ⟨stating f, ⟨f, hf, rfl⟩, rfl, stating_ground f⟩⟩
  rintro ⟨a, ⟨g, hg, rfl⟩, hp, ht⟩
  rw [stating_ground] at ht
  rwa [← show g = f from Prod.ext hp (Option.some.inj ht)]

theorem with_facts_ground (hg : p.GroundFacts) : (p.with_facts session).GroundFacts := by
  intro a ha
  rcases List.mem_append.mp ha with h | h
  · exact hg a h
  · obtain ⟨f, -, rfl⟩ := List.mem_map.mp h
    rw [stating_ground]
    rfl

/-- A stated tuple is on no edge of the dependency graph. -/
theorem with_facts_cycle :
    (p.with_facts session).CycleThroughNegation ↔ p.CycleThroughNegation := Iff.rfl

/-- The stated tuples have no interpolations, so both programs are refused alike. -/
theorem forM_reject_append (as bs cs : List Atom) (h : ∀ b ∈ bs, reject_bound b = .ok ()) :
    (as ++ bs ++ cs).forM reject_bound = (as ++ cs).forM reject_bound := by
  have hbs : bs.forM reject_bound = .ok () := (forM_reject_bound bs).mpr h
  simp only [List.forM_eq_forM] at hbs ⊢
  simp only [List.forM_append, hbs]
  cases forM as reject_bound <;> rfl

theorem with_facts_refused :
    (p.with_facts session).atoms.forM reject_bound = p.atoms.forM reject_bound := by
  refine forM_reject_append p.facts (session.map stating) _ ?_
  intro b hb
  obtain ⟨f, -, rfl⟩ := List.mem_map.mp hb
  exact stating_free f

theorem mem_seed_session {walk : HashOrder (String × Tuple)} {db : Database} {f : Fact} :
    f ∈ seed_session walk session db ↔ f ∈ db ∨ f ∈ session := by
  exact mem_merge.trans (or_congr Iff.rfl (walk.perm session).mem_iff)

end

theorem evaluate_with_session_perfect (hashes : Hashes) (walk : HashOrder (String × Tuple))
    (p : Program) (session : SessionEdb) (hb : p.atoms.forM reject_bound = .ok ())
    (hg : p.GroundFacts) (hs : ∀ rule ∈ p.rules, Safe rule) (fuel₀ : Nat) (s : Strata)
    (hstrata : compute_strata fuel₀ hashes.edges p = .ok (.ok s)) :
    ∃ N db, (∀ fuel, N ≤ fuel →
        evaluate_stratified_with_session fuel hashes walk p session = .ok (.ok db)) ∧
      db.facts = perfectModel (p.with_facts session) s := by
  obtain ⟨db₀, hseed, hmem₀⟩ := seed_facts_ok p.facts hg []
  have hdb₀ : (seed_session walk session db₀).facts = (p.with_facts session).stated := by
    rw [with_facts_stated]
    ext f
    refine mem_seed_session.trans (or_congr ?_ Iff.rfl)
    exact (hmem₀ f).trans (by simp [Program.stated])
  obtain ⟨N, db, hperfect, hrun⟩ := run_strata hashes.tuples (p.with_facts session)
    (compute_strata_stratifies hstrata).layers hs _ hdb₀
  refine ⟨max N fuel₀, db, ?_, hperfect⟩
  intro fuel hfuel
  unfold evaluate_stratified_with_session
  rw [hb]
  simp only
  rw [compute_strata_fuel (by omega : fuel₀ ≤ fuel) hstrata, Outcome.ok_bind]
  simp only
  rw [hseed, Outcome.ok_bind]
  exact hrun fuel (by omega)

/-- The overlay is the same as stating its tuples: both evaluations are refused
with the same error, or both end, and with the same tuples in every table. -/
theorem session_as_facts (hashes hashes' : Hashes) (walk : HashOrder (String × Tuple))
    (p : Program) (session : SessionEdb) (hg : p.GroundFacts)
    (hs : ∀ rule ∈ p.rules, Safe rule) (hc : ¬ p.CycleThroughNegation) :
    ∃ N, ∀ fuel, N ≤ fuel →
      (∃ e, evaluate_stratified_with_session fuel hashes walk p session = .ok (.error e) ∧
        Database.from_program fuel hashes' (p.with_facts session) = .ok (.error e)) ∨
      ∃ db db', evaluate_stratified_with_session fuel hashes walk p session = .ok (.ok db) ∧
        Database.from_program fuel hashes' (p.with_facts session) = .ok (.ok db') ∧
        ∀ predicate arity t, t ∈ db.tuples predicate arity ↔ t ∈ db'.tuples predicate arity := by
  cases hb : p.atoms.forM reject_bound with
  | error e =>
    refine ⟨0, fun fuel _ => .inl ⟨e, ?_, ?_⟩⟩
    · unfold evaluate_stratified_with_session
      rw [hb]
    · unfold Database.from_program evaluate_stratified
      rw [with_facts_refused, hb]
  | ok u =>
    obtain ⟨N₀, s, hrun₀, hfit⟩ := compute_strata_accepts hashes.edges hc
    obtain ⟨N, db, hrun, hperfect⟩ := evaluate_with_session_perfect hashes walk p session hb hg hs
      N₀ s (hrun₀ N₀ (le_refl _))
    have hb' : (p.with_facts session).NoPipeline := by
      rw [noPipeline_iff, with_facts_refused, hb]
    obtain ⟨N', db', hrun', hstable⟩ := evaluate_stable hashes' (p.with_facts session) hb'
      (with_facts_ground hg) hs (with_facts_cycle.not.mpr hc)
    have hsame : db.facts = db'.facts := by
      have hlayers : Layers (p.with_facts session).rules s := hfit.layers
      rw [hperfect]
      exact (perfect_stable hlayers).unique hlayers hstable
    refine ⟨max N N', fun fuel hfuel => .inr ⟨db, db', hrun fuel (by omega), hrun' fuel (by omega), ?_⟩⟩
    intro predicate arity t
    rw [mem_tuples, mem_tuples, hsame]

/-- Tuples for a stated predicate, for a derived one and for one that no rule mentions. -/
theorem apart_with_session :
    ∃ N, ∀ fuel, N ≤ fuel →
      (∃ e, evaluate_stratified_with_session fuel Hashes.plain (HashOrder.plain _) apart
          [("edge", [.Num 3, .Num 1]), ("path", [.Num 5, .Num 6]), ("note", [])] = .ok (.error e) ∧
        Database.from_program fuel Hashes.plain (apart.with_facts
          [("edge", [.Num 3, .Num 1]), ("path", [.Num 5, .Num 6]), ("note", [])]) =
            .ok (.error e)) ∨
      ∃ db db', evaluate_stratified_with_session fuel Hashes.plain (HashOrder.plain _) apart
          [("edge", [.Num 3, .Num 1]), ("path", [.Num 5, .Num 6]), ("note", [])] = .ok (.ok db) ∧
        Database.from_program fuel Hashes.plain (apart.with_facts
          [("edge", [.Num 3, .Num 1]), ("path", [.Num 5, .Num 6]), ("note", [])]) = .ok (.ok db') ∧
        ∀ predicate arity t, t ∈ db.tuples predicate arity ↔ t ∈ db'.tuples predicate arity := by
  refine session_as_facts Hashes.plain Hashes.plain (HashOrder.plain _) apart _ ?_ ?_ ?_
  · unfold Program.GroundFacts
    decide
  · decide
  · have hpos : ∀ rule ∈ apart.rules, ∀ goal ∈ rule.body,
        apartStrata.stratum goal.atom.predicate ≤ apartStrata.stratum rule.head.predicate := by
      decide
    have hneg : ∀ rule ∈ apart.rules, ∀ goal ∈ rule.body, goal.is_negated = true →
        apartStrata.stratum goal.atom.predicate < apartStrata.stratum rule.head.predicate := by
      decide
    exact Layers.acyclic ⟨fun rule hr a ha => hpos rule hr _ ha,
      fun rule hr a ha => hneg rule hr _ ha rfl⟩

end paideia_as_shell_datalog
