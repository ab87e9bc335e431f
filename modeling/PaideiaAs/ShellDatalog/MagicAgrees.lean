-- Magic-set evaluation against plain evaluation: the rewritten program can be
-- evaluated, and the two databases give the query the same answers where the
-- rewrite follows everything that the answers rest on.
import PaideiaAs.ShellDatalog.MagicModels

namespace paideia_as_shell_datalog

open List (map_cons mem_append mem_cons mem_map)

/-! ## The rewritten program can be evaluated -/

section

variable {p : Program} {q_head : Atom} {adorned : List (String × Adornment)}

theorem mem_atoms {a : Atom} : a ∈ p.atoms ↔ a ∈ p.facts ∨
    ∃ rule ∈ p.rules, a = rule.head ∨ ∃ goal ∈ rule.body, goal.atom = a := by
  unfold Program.atoms
  simp only [mem_append, List.mem_flatMap, mem_cons, mem_map]

theorem build_magic_terms {a m : Atom} {adr : Adornment} (h : build_magic_atom a adr = some m) :
    ∀ u ∈ m.terms, u ∈ a.terms := by
  obtain ⟨_, rfl⟩ := build_magic_eq.mp h
  exact fun u hu => mem_at_bound hu

theorem supplied_mem {rule : Rule} {adr : Adornment} {pre : List BodyGoal} {a m : Atom}
    (h : Supplied p adorned rule adr pre a m) :
    .Positive a ∈ rule.body ∧ ∀ b ∈ positives pre, .Positive b ∈ rule.body := by
  obtain ⟨post, hb⟩ := h.asked.place
  rw [hb]
  refine ⟨by simp, ?_⟩
  intro b hbpre
  exact List.mem_append_left _ (mem_positives.mp hbpre)

theorem query_seed_ground {f : Atom} (hf : f ∈ query_seed q_head) : f.is_ground = true := by
  unfold query_seed at hf
  simp only at hf
  split at hf
  · cases hf
  · split at hf
    · rename_i hg
      rw [List.mem_singleton.mp hf]
      exact hg
    · cases hf

theorem rewritten_noPipeline (hb : p.NoPipeline) : (rewritten p q_head adorned).NoPipeline := by
  have hrule : ∀ rule ∈ p.rules, (∀ x, Term.Bound x ∉ rule.head.terms) ∧
      ∀ goal ∈ rule.body, ∀ x, Term.Bound x ∉ goal.atom.terms := by
    intro rule hr
    refine ⟨hb _ (mem_atoms.mpr (.inr ⟨rule, hr, .inl rfl⟩)), ?_⟩
    intro goal hg
    exact hb _ (mem_atoms.mpr (.inr ⟨rule, hr, .inr ⟨goal, hg, rfl⟩⟩))
  have hmagic : ∀ rule ∈ p.rules, ∀ adr m, build_magic_atom rule.head adr = some m →
      ∀ x, Term.Bound x ∉ m.terms :=
    fun rule hr adr m hm x hx => (hrule rule hr).1 x (build_magic_terms hm _ hx)
  have hsup : ∀ {rule adr pre a m}, Supplied p adorned rule adr pre a m →
      ∀ x, Term.Bound x ∉ m.terms :=
    fun hs x hx => (hrule _ hs.rule_mem).2 _ (supplied_mem hs).1 x
      (build_magic_terms hs.asked.magic _ hx)
  intro a ha
  rcases mem_atoms.mp ha with ha | ⟨r, hr, ha⟩
  · rcases mem_rewritten_facts.mp ha with ha | ⟨rule, adr, pre, b, hs, _⟩ | ha
    · exact hb a (mem_atoms.mpr (.inl ha))
    · exact hsup hs
    · intro x hx
      obtain ⟨v, hv⟩ := is_ground_iff.mp (query_seed_ground ha) _ hx
      cases hv
  · rcases mem_rewritten_rules.mp hr with ⟨rule, hrule', adr, _, _, rfl⟩ |
      ⟨rule, adr, pre, b, m, hs, _, rfl⟩
    · rcases ha with rfl | ⟨goal, hg, rfl⟩
      · exact (hrule rule hrule').1
      · rcases mem_append.mp hg with hg | hg
        · obtain ⟨m, hm, rfl⟩ := mem_map.mp hg
          exact hmagic rule hrule' adr m (by simpa using hm)
        · exact (hrule rule hrule').2 goal hg
    · rcases ha with rfl | ⟨goal, hg, rfl⟩
      · exact hsup hs
      · unfold magic_body at hg
        obtain ⟨c, hc, rfl⟩ := mem_map.mp hg
        rcases mem_append.mp hc with hc | hc
        · exact hmagic rule hs.rule_mem adr c (by simpa using hc)
        · exact (hrule rule hs.rule_mem).2 _ ((supplied_mem hs).2 c hc)

theorem rewritten_groundFacts (hg : p.GroundFacts) : (rewritten p q_head adorned).GroundFacts := by
  intro a ha
  rcases mem_rewritten_facts.mp ha with ha | ⟨_, _, _, _, _, _, hground⟩ | ha
  · exact hg a ha
  · exact as_ground_isSome hground
  · exact as_ground_isSome (query_seed_ground ha)

theorem rewritten_safe (hs : ∀ rule ∈ p.rules, Safe rule) :
    ∀ r ∈ (rewritten p q_head adorned).rules, Safe r := by
  intro r hr
  rcases mem_rewritten_rules.mp hr with ⟨rule, hrule, adr, _, _, rfl⟩ |
    ⟨rule, adr, pre, a, m, hsup, hne, rfl⟩
  · have hsafe := hs rule hrule
    have hin : ∀ b, .Positive b ∈ rule.body → .Positive b ∈ (guarded rule adr).body :=
      fun b hb => List.mem_append_right _ hb
    refine ⟨?_, ?_, ?_⟩
    · obtain ⟨b, hb⟩ := hsafe.pivot
      exact ⟨b, hin b hb⟩
    · intro x hx
      obtain ⟨b, hb, hxb⟩ := hsafe.head x hx
      exact ⟨b, hin b hb, hxb⟩
    · intro n hn x hx
      have hn' : .Negative n ∈ rule.body := by
        rcases mem_append.mp hn with hn | hn
        · obtain ⟨_, _, he⟩ := mem_map.mp hn
          cases he
        · exact hn
      obtain ⟨b, hb, hxb⟩ := hsafe.negative n hn' x hx
      exact ⟨b, hin b hb, hxb⟩
  · have hbody : ∀ b, .Positive b ∈ magic_body (build_magic_atom rule.head adr) (positives pre) ↔
        b ∈ (build_magic_atom rule.head adr).toList ++ positives pre := by
      intro b
      unfold magic_body
      rw [mem_map]
      constructor
      · rintro ⟨c, hc, he⟩
        cases he
        exact hc
      · exact fun hb => ⟨b, hb, rfl⟩
    refine ⟨?_, ?_, ?_⟩
    · unfold magic_body at hne
      rw [ne_eq, List.map_eq_nil_iff] at hne
      obtain ⟨b, hb⟩ := List.exists_mem_of_ne_nil _ hne
      exact ⟨b, (hbody b).mpr hb⟩
    · intro x hx
      obtain ⟨hne', rfl⟩ := build_magic_eq.mp hsup.asked.magic
      rw [Atom.mem_vars] at hx
      rcases mem_at_bound_computed hx with ⟨v, hv⟩ | ⟨y, hy, he⟩
      · cases hv
      · cases he
        rcases mem_append.mp hy with hy | hy
        · have hhead := mem_head_bound_vars.mp hy
          obtain ⟨g, hguard, hterms⟩ : ∃ g, build_magic_atom rule.head adr = some g ∧
              g.terms = at_bound rule.head.terms adr :=
            ⟨_, build_magic_eq.mpr ⟨List.ne_nil_of_mem hhead, rfl⟩, rfl⟩
          refine ⟨g, (hbody g).mpr (List.mem_append_left _ ?_), Atom.mem_vars.mpr ?_⟩
          · rw [hguard]
            exact .head _
          · rw [hterms]
            exact hhead
        · obtain ⟨b, hb, hxb⟩ := List.mem_flatMap.mp hy
          exact ⟨b, (hbody b).mpr (List.mem_append_right _ hb), hxb⟩
    · intro n hn
      unfold magic_body at hn
      obtain ⟨_, _, he⟩ := mem_map.mp hn
      cases he

/-- The negated goals of the rewritten program are on predicates that none of
its rules has in the head, so no cycle goes through negation. -/
theorem rewritten_acyclic (h : Rewriting p q_head adorned) :
    ¬ (rewritten p q_head adorned).CycleThroughNegation := by
  have hheads : ∀ r ∈ (rewritten p q_head adorned).rules,
      r.head.predicate ∈ p.idb ∨ Made p q_head r.head.predicate := by
    intro r hr
    rcases mem_rewritten_rules.mp hr with ⟨rule, hrule, _, _, _, rfl⟩ | ⟨_, _, _, _, _, hs, _, rfl⟩
    · exact .inl (mem_idb.mpr ⟨rule, hrule, rfl⟩)
    · exact .inr (h.supplied_made hs)
  rintro ⟨src, tgt, ⟨r, hr, goal, hgoal, rfl, rfl, hneg⟩, hpath⟩
  have hsrc : goal.atom.predicate ∉ p.idb ∧ ¬ Made p q_head goal.atom.predicate := by
    cases goal with
    | Positive a => cases hneg
    | Negative n =>
      rcases mem_rewritten_rules.mp hr with ⟨rule, hrule, adr, hadr, hl, rfl⟩ |
        ⟨_, _, _, _, _, _, _, rfl⟩
      · rcases mem_append.mp hgoal with hn | hn
        · obtain ⟨_, _, he⟩ := mem_map.mp hn
          cases he
        · exact ⟨h.negated rule hrule adr ((h.adorned_iff _ _).mp hadr) hl n hn,
            h.apart _ (mentions_goal hrule hn)⟩
      · unfold magic_body at hgoal
        obtain ⟨_, _, he⟩ := mem_map.mp hgoal
        cases he
  have hnot : ∀ r' ∈ (rewritten p q_head adorned).rules,
      r'.head.predicate ≠ goal.atom.predicate := by
    intro r' hr' he
    rcases hheads r' hr' with hi | hg
    · exact hsrc.1 (he ▸ hi)
    · exact hsrc.2 (he ▸ hg)
  rcases Relation.ReflTransGen.cases_tail hpath with he | ⟨mid, _, neg, r', hr', _, _, _, he, _⟩
  · exact hnot r hr he.symm
  · exact hnot r' hr' he

end

/-! ## Answers -/

def SameAnswers : Except EvalError (List Binding) → Except EvalError (List Binding) → Prop
  | .ok bs, .ok bs' => ∀ b, b ∈ bs ↔ b ∈ bs'
  | .error e, .error e' => e = e'
  | _, _ => False

theorem SameAnswers.refl (r : Except EvalError (List Binding)) : SameAnswers r r := by
  cases r with
  | ok bs => exact fun b => Iff.rfl
  | error e => rfl

section

variable {db db' : Database}

theorem extend_same (hash : HashOrder Tuple) {a : Atom} (h : ∀ σ t, a.instantiate σ = some t →
      ((a.predicate, t) ∈ db ↔ (a.predicate, t) ∈ db'))
    {bs bs' : List Binding} (hbs : ∀ b, b ∈ bs ↔ b ∈ bs') (b : Binding) :
    b ∈ extend_with_db hash a db bs ↔ b ∈ extend_with_db hash a db' bs' := by
  rw [mem_extend, mem_extend]
  constructor
  · rintro ⟨c, hc, t, ht, hl, hu⟩
    obtain ⟨σ, hσ⟩ := exists_agrees b
    have hinst := (((unify_atom_some hu).1 σ).mp hσ).2
    exact ⟨c, (hbs c).mp hc, t, (h σ t hinst).mp ht, hl, hu⟩
  · rintro ⟨c, hc, t, ht, hl, hu⟩
    obtain ⟨σ, hσ⟩ := exists_agrees b
    have hinst := (((unify_atom_some hu).1 σ).mp hσ).2
    exact ⟨c, (hbs c).mpr hc, t, (h σ t hinst).mpr ht, hl, hu⟩

theorem answer_goals_same (hash : HashOrder Tuple) (goals : List Atom) (h : ∀ a ∈ goals, ∀ σ t, a.instantiate σ = some t →
      ((a.predicate, t) ∈ db ↔ (a.predicate, t) ∈ db'))
    (bs bs' : List Binding) (hbs : ∀ b, b ∈ bs ↔ b ∈ bs') (b : Binding) :
    b ∈ answer_goals hash db goals bs ↔ b ∈ answer_goals hash db' goals bs' := by
  induction goals generalizing bs bs' with
  | nil => exact hbs b
  | cons a goals ih =>
    have hnext := fun b => extend_same hash (h a (.head _)) hbs b
    have hempty : (extend_with_db hash a db bs).isEmpty =
        (extend_with_db hash a db' bs').isEmpty := by
      rw [Bool.eq_iff_iff, List.isEmpty_iff, List.isEmpty_iff, List.eq_nil_iff_forall_not_mem,
        List.eq_nil_iff_forall_not_mem]
      exact forall_congr' fun c => not_congr (hnext c)
    rw [answer_goals, answer_goals]
    simp only [hempty]
    split
    · exact hnext b
    · exact ih (fun c hc => h c (.tail _ hc)) _ _ hnext

theorem query_same (hash : HashOrder Tuple) {q : Query} (h : ∀ a ∈ q.goals, ∀ σ t, a.instantiate σ = some t →
      ((a.predicate, t) ∈ db ↔ (a.predicate, t) ∈ db')) :
    SameAnswers (query hash db q) (query hash db' q) := by
  unfold query
  cases q.goals.forM reject_bound with
  | error e => rfl
  | ok u =>
    by_cases hempty : q.goals.isEmpty = true
    · simp only [hempty, if_true]
      exact SameAnswers.refl _
    · simp only [hempty]
      exact answer_goals_same hash q.goals h _ _ fun b => Iff.rfl

end

/-! ## The query by way of the rewrite -/

/-- The goal has every constant of the first goal in the same place. -/
def SameBound (q_head a : Atom) : Prop :=
  a.predicate = q_head.predicate ∧
    List.Forall₂ (fun u w => ∀ v, u = Term.Const v → w = Term.Const v) q_head.terms a.terms

theorem SameBound.refl (a : Atom) : SameBound a a :=
  ⟨rfl, List.forall₂_same.mpr fun _ _ _ h => h⟩

/-- The rewrite for the goals follows what their answers rest on: the names
that it makes are not used, no rule that is kept negates a predicate with
rules, and every later goal is on a predicate without rules, on one that the
first goal demands with no argument bound, or repeats the constants of the
first goal. -/
structure Followed (p : Program) (q_head : Atom) (rest : List Atom) : Prop where
  apart : ∀ pred, p.Mentions pred → ¬ Made p q_head pred
  negated : ∀ rule ∈ p.rules, ∀ adr, Demanded p q_head rule.head.predicate adr →
    adr.length = rule.head.terms.length → ∀ n, .Negative n ∈ rule.body → n.predicate ∉ p.idb
  later : ∀ a ∈ rest, ¬ Made p q_head a.predicate ∧ (a.predicate ∉ p.idb ∨
    Demanded p q_head a.predicate (List.replicate a.terms.length false) ∨ SameBound q_head a)

/-- The first goal has no constant, or there is no goal: the rewrite gives the
program back. -/
def Unrewritten (q : Query) : Prop :=
  ∀ q_head rest, q.goals = q_head :: rest → (query_adornment q_head).any id = false

section

variable {p : Program} {q_head : Atom} {adorned : List (String × Adornment)}

def Term.isConst : Term → Bool
  | .Const _ => true
  | _ => false

theorem at_bound_query {a : Atom} (h : SameBound q_head a) :
    at_bound a.terms (query_adornment q_head) = at_bound q_head.terms (query_adornment q_head) := by
  have key : ∀ us ws : List Term,
      List.Forall₂ (fun u w => ∀ v, u = Term.Const v → w = Term.Const v) us ws →
      at_bound ws (us.map Term.isConst) = at_bound us (us.map Term.isConst) := by
    intro us ws h
    induction h with
    | nil => rfl
    | @cons u w us ws huw _ ih =>
      rw [map_cons, at_bound_cons, at_bound_cons, ih]
      cases u with
      | Const v => rw [huw v rfl]
      | Var x => rfl
      | Bound x => rfl
  exact key _ _ h.2

/-- The magic fact of the query. -/
def seedAtom (q_head : Atom) : Atom where
  predicate := magic_pred_name q_head.predicate (query_adornment q_head)
  terms := at_bound q_head.terms (query_adornment q_head)

theorem seed_const {u : Term} (hu : u ∈ at_bound q_head.terms (query_adornment q_head)) :
    ∃ v, u = .Const v := by
  have key : ∀ us : List Term, ∀ u ∈ at_bound us (us.map Term.isConst), ∃ v, u = .Const v := by
    intro us
    induction us with
    | nil =>
      intro u hu
      cases hu
    | cons w us ih =>
      intro u hu
      rw [map_cons, at_bound_cons] at hu
      cases w with
      | Const v =>
        rcases mem_cons.mp hu with rfl | hu
        · exact ⟨v, rfl⟩
        · exact ih u hu
      | Var x => exact ih u hu
      | Bound x => exact ih u hu
  exact key _ u hu

/-- The seed is the magic tuple of a goal with the constants of the first
one. -/
theorem seed_opens {M' : Set Fact} (hM' : Stable (rewritten p q_head adorned) M') {a : Atom}
    (ha : SameBound q_head a) {σ : Valuation} {t : Tuple} (ht : a.instantiate σ = some t) :
    Opens M' (query_adornment q_head) (a.predicate, t) := by
  have hinst : List.Forall₂ (fun u v => u.eval σ = some v)
      (at_bound q_head.terms (query_adornment q_head)) (at_bound t (query_adornment q_head)) := by
    rw [← at_bound_query ha]
    exact forall₂_at_bound (instantiate_eq.mp ht) _
  by_cases hnil : at_bound q_head.terms (query_adornment q_head) = []
  · left
    rw [hnil] at hinst
    exact List.forall₂_nil_left_iff.mp hinst
  · right
    have hground : (seedAtom q_head).is_ground = true :=
      is_ground_iff.mpr fun u hu => seed_const hu
    apply hM'.stated
    refine ⟨seedAtom q_head, mem_rewritten_facts.mpr (.inr (.inr ?_)), ?_, ?_⟩
    · unfold seedAtom at hground ⊢
      unfold query_seed
      simp only
      rw [if_neg (by rwa [List.isEmpty_iff]), if_pos hground]
      exact .head _
    · simp only [seedAtom, ha.1]
    · rw [← instantiate_ground hground]
      exact instantiate_eq.mpr hinst

theorem at_bound_free (t : Tuple) (k : Nat) : at_bound t (List.replicate k false) = [] := by
  induction t generalizing k with
  | nil => simp [at_bound]
  | cons v t ih =>
    cases k with
    | zero => simp [at_bound]
    | succ k =>
      rw [List.replicate_succ, at_bound_cons]
      exact ih k

theorem goals_agree {rest : List Atom} (h : Followed p q_head rest)
    (hadorned : ∀ pred adr, (pred, adr) ∈ adorned ↔ Demanded p q_head pred adr) {M M' : Set Fact}
    (hM : Stable p M) (hM' : Stable (rewritten p q_head adorned) M') :
    ∀ a ∈ q_head :: rest, ∀ σ t, a.instantiate σ = some t →
      ((a.predicate, t) ∈ M ↔ (a.predicate, t) ∈ M') := by
  have hr : Rewriting p q_head adorned := ⟨hadorned, h.apart, h.negated⟩
  intro a ha σ t ht
  have hlen : t.length = a.terms.length := instantiate_length ht
  have hsame : SameBound q_head a → (a.predicate, t) ∈ M → (a.predicate, t) ∈ M' := by
    intro hs hm
    refine magic_complete hr hM hM' hm (query_adornment q_head) ?_ ?_ (seed_opens hM' hs ht)
    · rw [hs.1]
      exact Demanded.query
    · rw [hlen, ← hs.2.length_eq]
      exact List.length_map _
  rcases mem_cons.mp ha with rfl | ha
  · refine ⟨hsame (SameBound.refl a), ?_⟩
    intro hm
    exact (magic_sound hr hM hM' hm).resolve_left hr.query_not_made
  · obtain ⟨hname, hcase⟩ := h.later a ha
    constructor
    · intro hm
      rcases hcase with hi | hd | hs
      · apply hM'.stated
        apply mem_stated_rewritten
        exact hM.stated_of_no_rule hm fun r hr' he => hi (mem_idb.mpr ⟨r, hr', he⟩)
      · refine magic_complete hr hM hM' hm _ hd ?_ (.inl (at_bound_free t _))
        rw [List.length_replicate, hlen]
      · exact hsame hs hm
    · intro hm
      exact (magic_sound hr hM hM' hm).resolve_left hname

end

/-- Both evaluations end, and they give the same answers. -/
def Agree (hashes : Hashes) (p : Program) (q : Query) : Prop :=
  ∃ N r r', (∀ fuel, N ≤ fuel → run_query fuel hashes p q = .ok r) ∧
    (∀ fuel, N ≤ fuel → run_query_via_magic_sets fuel hashes p q = .ok r') ∧ SameAnswers r r'

section

variable {p : Program} {q : Query}

theorem run_query_ok {hashes : Hashes} {fuel : Nat} {db : Database}
    (h : evaluate_stratified fuel hashes p = .ok (.ok db)) :
    run_query fuel hashes p q = .ok (query hashes.tuples db q) := by
  unfold run_query Database.from_program
  rw [h]
  rfl

/-- Where the rewrite gives the program back, both are the same run. -/
theorem agree_of_unrewritten (hashes : Hashes) (hb : p.NoPipeline) (hg : p.GroundFacts)
    (hs : ∀ rule ∈ p.rules, Safe rule) (hc : ¬ p.CycleThroughNegation) (h : Unrewritten q) :
    Agree hashes p q := by
  obtain ⟨N, db, hrun, _⟩ := evaluate_stable hashes p hb hg hs hc
  have hsame : ∀ fuel, rewrite fuel hashes p q = .ok p := by
    intro fuel
    unfold rewrite
    cases hgoals : q.goals with
    | nil => rfl
    | cons q_head rest =>
      simp only [h q_head rest hgoals]
      rfl
  refine ⟨N, _, _, fun fuel hfuel => run_query_ok (hrun fuel hfuel), ?_, SameAnswers.refl _⟩
  intro fuel hfuel
  unfold run_query_via_magic_sets
  rw [hsame fuel, Outcome.ok_bind, hrun fuel hfuel]
  rfl

/-- Where the rewrite follows what the answers rest on, both evaluations give
the same answers. -/
theorem agree_of_followed (hashes : Hashes) (hb : p.NoPipeline) (hg : p.GroundFacts)
    (hs : ∀ rule ∈ p.rules, Safe rule) (hc : ¬ p.CycleThroughNegation) {q_head : Atom}
    {rest : List Atom} (hgoals : q.goals = q_head :: rest)
    (hany : (query_adornment q_head).any id = true) (hf : Followed p q_head rest) :
    Agree hashes p q := by
  obtain ⟨N, db, hrun, hM⟩ := evaluate_stable hashes p hb hg hs hc
  obtain ⟨N₁, out, hadorn, hout⟩ := adorn_spec p q_head
  have hmem : ∀ pred adr, (pred, adr) ∈ hashes.adorned.order out ↔
      Demanded p q_head pred adr := by
    intro pred adr
    rw [(hashes.adorned.perm out).mem_iff, hout]
  obtain ⟨N₂, db', hrun', hM'⟩ := evaluate_stable hashes
    (rewritten p q_head (hashes.adorned.order out)) (rewritten_noPipeline hb)
    (rewritten_groundFacts hg) (rewritten_safe hs)
    (rewritten_acyclic ⟨hmem, hf.apart, hf.negated⟩)
  refine ⟨max N (max N₁ N₂), query hashes.tuples db q, query hashes.tuples db' q, ?_, ?_, ?_⟩
  · exact fun fuel hfuel => run_query_ok (hrun fuel (by omega))
  · intro fuel hfuel
    unfold run_query_via_magic_sets rewrite
    rw [hgoals]
    simp only [hany, if_true, hadorn fuel (by omega), Outcome.ok_bind, hrun' fuel (by omega)]
  · apply query_same
    rw [hgoals]
    exact goals_agree hf hmem hM hM'

end

end paideia_as_shell_datalog
