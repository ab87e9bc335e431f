-- How the answers change with the program: not when answers are stated again, and not where
-- rules are added for other predicates.
import PaideiaAs.ShellDatalog.Stable

open Closure

namespace paideia_as_shell_datalog

open List (mem_append mem_append_left mem_flatMap)

/-- What the evaluator asks of a program. -/
structure Program.Accepted (p : Program) : Prop where
  pipeline : p.NoPipeline
  ground : p.GroundFacts
  safe : ∀ rule ∈ p.rules, Safe rule
  stratified : ¬ p.CycleThroughNegation

/-- The evaluation ends with the tuples of the set in its tables, whatever the order in
which maps are walked. -/
def Derives (p : Program) (M : Set Fact) : Prop :=
  ∀ hashes, ∃ N db, (∀ fuel, N ≤ fuel → Database.from_program fuel hashes p = .ok (.ok db)) ∧
    ∀ predicate arity t, t ∈ db.tuples predicate arity ↔ t.length = arity ∧ (predicate, t) ∈ M

variable {p q : Program} {M M' : Set Fact}

/-- The one stable set is what comes out. -/
theorem Program.Accepted.answers (hp : p.Accepted) (hM : Stable p M) : Derives p M := by
  intro hashes
  obtain ⟨N, db, hrun, hdb⟩ := evaluate_stable hashes p hp.pipeline hp.ground hp.safe hp.stratified
  obtain ⟨-, s, -, hfit⟩ := compute_strata_accepts hashes.edges hp.stratified
  refine ⟨N, db, hrun, ?_⟩
  intro predicate arity t
  rw [mem_tuples, hdb.unique hfit.layers hM]

/-- What comes out is the stable set. -/
theorem Program.Accepted.stable (hp : p.Accepted) (h : Derives p M) : Stable p M := by
  obtain ⟨N, db, hrun, hdb⟩ :=
    evaluate_stable Hashes.plain p hp.pipeline hp.ground hp.safe hp.stratified
  obtain ⟨N', db', hrun', hmem⟩ := h Hashes.plain
  have hsame := (hrun' _ (Nat.le_max_right N N')).symm.trans (hrun _ (Nat.le_max_left N N'))
  rw [Except.ok.injEq, Except.ok.injEq] at hsame
  suffices M = db.facts from this ▸ hdb
  ext f
  have hf := hmem f.1 f.2.length f.2
  rw [mem_tuples, hsame] at hf
  simpa using hf.symm

theorem accepted_of_run {hash : HashOrder SccEdge} {fuel : Nat} {s : Strata}
    (hb : p.atoms.forM reject_bound = .ok ()) (hg : p.GroundFacts)
    (hs : ∀ rule ∈ p.rules, Safe rule) (hrun : compute_strata fuel hash p = .ok (.ok s)) :
    p.Accepted :=
  ⟨noPipeline_iff.mpr hb, hg, hs, (compute_strata_stratifies hrun).layers.acyclic⟩

theorem apart_accepted : apart.Accepted :=
  @accepted_of_run apart (.plain _) 100 apartStrata rfl
    (by unfold Program.GroundFacts; decide) (by decide) (by decide +kernel)

theorem Program.Accepted.exists_stable (hp : p.Accepted) : ∃ M, Stable p M := by
  obtain ⟨-, db, -, hdb⟩ :=
    evaluate_stable Hashes.plain p hp.pipeline hp.ground hp.safe hp.stratified
  exact ⟨db.facts, hdb⟩

/-- A set that has the stated facts, that the rules keep and that lies in every set with
these two properties is stable. -/
theorem stable_of (hstated : p.stated ⊆ M)
    (hclosed : ∀ rule ∈ p.rules, ∀ σ f, Fires rule M M σ f → f ∈ M) (hleast : ∀ S, p.stated ⊆ S →
      (∀ rule ∈ p.rules, ∀ σ f, Fires rule (M ∩ S) M σ f → f ∈ S) → M ⊆ S) : Stable p M := by
  apply Set.Subset.antisymm
  · apply hleast _ base_subset
    intro rule hr σ f hf
    obtain ⟨i, hi, rfl, hb⟩ := instances_iff.mpr ⟨rule, hr, σ, hf⟩
    exact least_closed hi fun g hg => (hb g hg).2
  · apply least_subset hstated
    intro i hi hb
    obtain ⟨rule, hr, σ, hf⟩ := instances_iff.mp ⟨i, hi, rfl, hb⟩
    exact hclosed rule hr σ i.head hf

theorem Fires.transfer {rule : Rule} {S S' N N' : Set Fact} {σ : Valuation} {f : Fact}
    (h : Fires rule S N σ f) (hpos : ∀ a, .Positive a ∈ rule.body → Holds σ a S → Holds σ a S')
    (hneg : ∀ a, .Negative a ∈ rule.body → Holds σ a N' → Holds σ a N) : Fires rule S' N' σ f :=
  ⟨h.predicate, h.head, fun a ha => hpos a ha (h.positive a ha),
    fun a ha hN => h.negative a ha (hneg a ha hN)⟩

/-! ## The same rules -/

/-- The answers depend neither on the order nor on the repetitions of the rules and facts,
and they stay the same when some of them are stated as facts. -/
theorem restated_answers (hp : p.Accepted) (hq : q.Accepted)
    (hrules : ∀ rule, rule ∈ q.rules ↔ rule ∈ p.rules) (hfacts : p.stated ⊆ q.stated) :
    ∃ M, Derives p M ∧ (q.stated ⊆ M → Derives q M) := by
  obtain ⟨M, hM⟩ := hp.exists_stable
  refine ⟨M, hp.answers hM, ?_⟩
  intro hsub
  refine hq.answers (stable_of hsub ?_ ?_)
  · exact fun rule hr σ f hf => hM.closed ((hrules rule).mp hr) hf
  · exact fun S hS hstep => hM.induct S (hfacts.trans hS) fun rule hr =>
      hstep rule ((hrules rule).mpr hr)

/-- The same rules with one of the answers as a fact. -/
def apartAgain : Program :=
  ⟨apart.rules, ⟨"path", [.Const (.Num 1), .Const (.Num 2)]⟩ :: apart.facts⟩

theorem apart_restated : ∃ M, Derives apart M ∧ Derives apartAgain M := by
  obtain ⟨M, hM, hagain⟩ := restated_answers apart_accepted
    (@accepted_of_run apartAgain (.plain _) 100 apartStrata rfl
      (by unfold Program.GroundFacts; decide) (by decide) (by decide +kernel))
    (fun _ => Iff.rfl) (by rintro f ⟨a, ha, h⟩; exact ⟨a, .tail _ ha, h⟩)
  refine ⟨M, hM, hagain ?_⟩
  have hstable := apart_accepted.stable hM
  rintro f ⟨a, ha, hp, hg⟩
  rcases List.mem_cons.mp ha with rfl | ha
  · -- `path(1, 2)` by the first rule from `edge(1, 2)`
    have hedge : ("edge", [.Num 1, .Num 2]) ∈ M := hstable.stated ⟨_, .head _, rfl, rfl⟩
    refine hstable.closed (.head _) (σ := fun x => if x = "x" then .Num 1 else .Num 2)
      ⟨hp, hg, fun b hb => ?_, fun b hb => ?_⟩
    · cases List.mem_singleton.mp hb
      exact ⟨_, rfl, hedge⟩
    · cases List.mem_singleton.mp hb
  · exact hstable.stated ⟨a, ha, hp, hg⟩

/-! ## More rules -/

def Program.extend (p q : Program) : Program := ⟨p.rules ++ q.rules, p.facts ++ q.facts⟩

/-- The program has a fact or a rule for the predicate. -/
def Program.Defines (q : Program) (predicate : String) : Prop :=
  (∃ a ∈ q.facts, a.predicate = predicate) ∨ ∃ rule ∈ q.rules, rule.head.predicate = predicate

theorem mem_rules_extend {rule : Rule} :
    rule ∈ (p.extend q).rules ↔ rule ∈ p.rules ∨ rule ∈ q.rules := mem_append

theorem mem_stated_extend {f : Fact} : f ∈ (p.extend q).stated ↔ f ∈ p.stated ∨ f ∈ q.stated := by
  unfold Program.stated Program.extend
  simp only [Set.mem_ofPred_eq, mem_append, or_and_right, exists_or]

theorem Program.Accepted.left (h : (p.extend q).Accepted) : p.Accepted := by
  refine ⟨?_, ?_, ?_, ?_⟩
  · intro a ha
    refine h.pipeline a ?_
    unfold Program.atoms at ha ⊢
    rcases mem_append.mp ha with ha | ha
    · exact mem_append_left _ (mem_append_left _ ha)
    · obtain ⟨rule, hr, ha⟩ := mem_flatMap.mp ha
      exact List.mem_append_right _ (mem_flatMap.mpr ⟨rule, mem_append_left _ hr, ha⟩)
  · exact fun a ha => h.ground a (mem_append_left _ ha)
  · exact fun rule hr => h.safe rule (mem_append_left _ hr)
  · obtain ⟨-, s, -, hfit⟩ := compute_strata_accepts Hashes.plain.edges h.stratified
    exact Layers.acyclic ⟨fun rule hr => hfit.positive rule (mem_append_left _ hr),
      fun rule hr => hfit.negative rule (mem_append_left _ hr)⟩

/-- The stable set of both, without the predicates that the second defines, is stable for
the first where that does not mention them. -/
theorem Stable.restrict (hM : Stable (p.extend q) M)
    (hapart : ∀ a ∈ p.atoms, ¬ q.Defines a.predicate) :
    Stable p {f | f ∈ M ∧ ¬ q.Defines f.1} := by
  have hhead : ∀ rule ∈ p.rules, ¬ q.Defines rule.head.predicate := fun rule hr =>
    hapart _ (List.mem_append_right _ (mem_flatMap.mpr ⟨rule, hr, .head _⟩))
  have hgoal : ∀ rule ∈ p.rules, ∀ goal ∈ rule.body, ¬ q.Defines goal.atom.predicate :=
    fun rule hr goal hg => hapart _ (List.mem_append_right _
      (mem_flatMap.mpr ⟨rule, hr, .tail _ (List.mem_map.mpr ⟨goal, hg, rfl⟩)⟩))
  refine stable_of ?_ ?_ ?_
  · intro f hf
    obtain ⟨a, ha, hp, hg⟩ := hf
    refine ⟨hM.stated (mem_stated_extend.mpr (.inl ⟨a, ha, hp, hg⟩)), ?_⟩
    rw [← hp]
    exact hapart a (mem_append_left _ ha)
  · intro rule hr σ f hf
    refine ⟨hM.closed (mem_rules_extend.mpr (.inl hr)) (hf.transfer ?_ ?_), ?_⟩
    · exact fun a _ hS => hS.mono fun d hd _ => hd.1
    · exact fun a ha hS => hS.mono fun d hd hp => ⟨hd, hp ▸ hgoal rule hr _ ha⟩
    · rw [← hf.predicate]
      exact hhead rule hr
  · intro S hstated hstep f hf
    refine hM.induct {f | ¬ q.Defines f.1 → f ∈ S} ?_ ?_ hf.1 hf.2
    · intro g hg hno
      rcases mem_stated_extend.mp hg with hg | ⟨a, ha, hp, -⟩
      · exact hstated hg
      · exact absurd (.inl ⟨a, ha, hp⟩) hno
    · intro rule hr σ g hfires hno
      have hr : rule ∈ p.rules := (mem_rules_extend.mp hr).resolve_right fun hr =>
        hno (.inr ⟨rule, hr, hfires.predicate⟩)
      refine hstep rule hr σ g (hfires.transfer ?_ ?_)
      · intro a ha hS
        refine hS.mono fun d hd hp => ?_
        have hd' : ¬ q.Defines d.1 := hp ▸ hgoal rule hr _ ha
        exact ⟨⟨hd.1, hd'⟩, hd.2 hd'⟩
      · exact fun a _ hS => hS.mono fun d hd _ => hd.1

/-- Rules and facts for predicates that a program does not mention change none of its
tables, although they may read them, also under negation. -/
theorem extension_is_conservative (h : (p.extend q).Accepted)
    (hapart : ∀ a ∈ p.atoms, ¬ q.Defines a.predicate) :
    ∃ M M', Derives p M ∧ Derives (p.extend q) M' ∧
      ∀ f, ¬ q.Defines f.1 → (f ∈ M' ↔ f ∈ M) := by
  obtain ⟨M', hM'⟩ := h.exists_stable
  exact ⟨_, M', h.left.answers (hM'.restrict hapart), h.answers hM', fun f hno =>
    ⟨fun hf => ⟨hf, hno⟩, And.left⟩⟩

theorem conservative_below_apart : ∃ M M', Derives ⟨apart.rules.take 2, apart.facts⟩ M ∧
    Derives apart M' ∧ ∀ f, ¬ Program.Defines ⟨apart.rules.drop 2, []⟩ f.1 → (f ∈ M' ↔ f ∈ M) :=
  extension_is_conservative (p := ⟨apart.rules.take 2, apart.facts⟩)
    (q := ⟨apart.rules.drop 2, []⟩) apart_accepted (by unfold Program.Defines; decide)

end paideia_as_shell_datalog
