-- Queries by way of the rewrite and on the whole program: the programs
-- without negation, and what goes wrong with negation and with later goals.
import PaideiaAs.ShellDatalog.MagicAgrees

namespace paideia_as_shell_datalog

/-- The prefix of the names that the rewrite makes. -/
def MagicName (name : String) : Prop := "magic_".toList <+: name.toList

instance (name : String) : Decidable (MagicName name) :=
  inferInstanceAs (Decidable ("magic_".toList <+: name.toList))

theorem Made.magicName {p : Program} {q_head : Atom} {name : String} (h : Made p q_head name) :
    MagicName name := by
  obtain ⟨pred, adr, _, rfl⟩ := h
  unfold MagicName magic_pred_name
  rw [String.toList_append, String.toList_append, String.toList_append, List.append_assoc,
    List.append_assoc]
  exact List.prefix_append _ _

/-- The number of answers, where the evaluation gives some. -/
def answerCount : Outcome (Except EvalError (List Binding)) → Option Nat
  | .ok (.ok bs) => some bs.length
  | _ => none

/-! ## Programs without negation -/

/-- On a program without negation, whose rules have a body that binds the
variables of the head and which uses no magic name, a query of one goal has the
same answers by way of the rewrite and on the whole program. -/
theorem magic_agrees_without_negation (hashes : Hashes) (p : Program) (hb : p.NoPipeline)
    (hg : p.GroundFacts) (hbody : ∀ rule ∈ p.rules, rule.body ≠ [])
    (hpos : ∀ rule ∈ p.rules, ∀ goal ∈ rule.body, goal.is_negated = false)
    (hrange : ∀ rule ∈ p.rules, ∀ x ∈ rule.head.vars, ∃ goal ∈ rule.body, x ∈ goal.atom.vars)
    (hno : ∀ pred, p.Mentions pred → ¬ MagicName pred) (goal : Atom) :
    Agree hashes p { goals := [goal] } := by
  have hposit : ∀ rule ∈ p.rules, ∀ g ∈ rule.body, g = .Positive g.atom := by
    intro rule hr g hmem
    cases g with
    | Positive a => rfl
    | Negative a => cases hpos rule hr _ hmem
  have hnoneg : ∀ rule ∈ p.rules, ∀ n, .Negative n ∉ rule.body := by
    intro rule hr n hn
    cases hpos rule hr _ hn
  have hsafe : ∀ rule ∈ p.rules, Safe rule := by
    intro rule hr
    refine ⟨?_, ?_, fun n hn => absurd hn (hnoneg rule hr n)⟩
    · obtain ⟨g, hmem⟩ := List.exists_mem_of_ne_nil _ (hbody rule hr)
      exact ⟨g.atom, hposit rule hr g hmem ▸ hmem⟩
    · intro x hx
      obtain ⟨g, hmem, hxg⟩ := hrange rule hr x hx
      exact ⟨g.atom, hposit rule hr g hmem ▸ hmem, hxg⟩
  have hacyclic : ¬ p.CycleThroughNegation := by
    rintro ⟨src, tgt, ⟨rule, hr, g, hmem, _, _, hneg⟩, _⟩
    rw [hpos rule hr g hmem] at hneg
    cases hneg
  by_cases hany : (query_adornment goal).any id = true
  · apply agree_of_followed hashes hb hg hsafe hacyclic rfl hany
    refine ⟨fun pred hm hmade => hno pred hm hmade.magicName,
      fun rule hr _ _ _ n hn => absurd hn (hnoneg rule hr n), ?_⟩
    intro a ha
    cases ha
  · apply agree_of_unrewritten hashes hb hg hsafe hacyclic
    intro q_head rest hq
    cases hq
    simpa using hany

/-- The targets that are reached from an element: a recursive rule. -/
def reaches : Program where
  rules :=
    [⟨⟨"path", [.Var "x", .Var "y"]⟩, [.Positive ⟨"edge", [.Var "x", .Var "y"]⟩]⟩,
     ⟨⟨"path", [.Var "x", .Var "z"]⟩,
      [.Positive ⟨"edge", [.Var "x", .Var "y"]⟩, .Positive ⟨"path", [.Var "y", .Var "z"]⟩]⟩]
  facts :=
    [⟨"edge", [.Const (.Num 1), .Const (.Num 2)]⟩, ⟨"edge", [.Const (.Num 2), .Const (.Num 3)]⟩]

theorem reaches_agrees :
    Agree Hashes.plain reaches { goals := [⟨"path", [.Const (.Num 1), .Var "to"]⟩] } :=
  magic_agrees_without_negation Hashes.plain reaches (noPipeline_iff.mpr rfl)
    (by unfold Program.GroundFacts; decide) (by decide) (by decide) (by decide)
    (fun pred hm => (by decide : ∀ pred ∈ reaches.preds, ¬ MagicName pred) pred
      (Program.mem_preds.mpr hm)) _

/-- A rule without a body, which the evaluator skips. -/
def bodiless : Program where
  rules := [⟨⟨"p", [.Var "x"]⟩, [.Positive ⟨"e", [.Var "x"]⟩]⟩, ⟨⟨"p", [.Const (.Num 1)]⟩, []⟩]
  facts := [⟨"e", [.Const (.Num 2)]⟩]

/-- The guard gives the rule without a body a goal, and it fires. -/
theorem bodiless_differs :
    (∀ rule ∈ bodiless.rules, ∀ goal ∈ rule.body, goal.is_negated = false) ∧
      (∀ rule ∈ bodiless.rules, ∀ x ∈ rule.head.vars, ∃ goal ∈ rule.body, x ∈ goal.atom.vars) ∧
      (∀ pred ∈ bodiless.preds, ¬ MagicName pred) ∧
      answerCount (run_query 100 Hashes.plain bodiless
        { goals := [⟨"p", [.Const (.Num 1)]⟩] }) = some 0 ∧
      answerCount (run_query_via_magic_sets 100 Hashes.plain bodiless
        { goals := [⟨"p", [.Const (.Num 1)]⟩] }) = some 1 := by
  refine ⟨by decide, by decide, by decide, by decide +kernel, by decide +kernel⟩

/-! ## Programs with negation, and queries of several goals -/

/-- Magic-set evaluation agrees with plain evaluation where the rewrite leaves
the program as it is or follows what the answers rest on. -/
theorem magic_agrees_where_followed (hashes : Hashes) (p : Program) (q : Query) (hb : p.NoPipeline)
    (hg : p.GroundFacts) (hs : ∀ rule ∈ p.rules, Safe rule) (hc : ¬ p.CycleThroughNegation)
    (h : Unrewritten q ∨ ∃ q_head rest, q.goals = q_head :: rest ∧ Followed p q_head rest) :
    Agree hashes p q := by
  rcases h with h | ⟨q_head, rest, hgoals, hf⟩
  · exact agree_of_unrewritten hashes hb hg hs hc h
  · by_cases hany : (query_adornment q_head).any id = true
    · exact agree_of_followed hashes hb hg hs hc hgoals hany hf
    · apply agree_of_unrewritten hashes hb hg hs hc
      intro q_head' rest' hq
      rw [hgoals] at hq
      cases hq
      simpa using hany

/-- The parts that are in no list of parts to leave out: the negated goal is
on stated facts. -/
def kept : Program where
  rules :=
    [⟨⟨"part", [.Var "x", .Var "y"]⟩, [.Positive ⟨"of", [.Var "x", .Var "y"]⟩]⟩,
     ⟨⟨"part", [.Var "x", .Var "z"]⟩,
      [.Positive ⟨"of", [.Var "x", .Var "y"]⟩, .Negative ⟨"out", [.Var "y"]⟩,
       .Positive ⟨"part", [.Var "y", .Var "z"]⟩]⟩]
  facts :=
    [⟨"of", [.Const (.Num 1), .Const (.Num 2)]⟩, ⟨"of", [.Const (.Num 2), .Const (.Num 3)]⟩,
     ⟨"out", [.Const (.Num 2)]⟩]

theorem kept_agrees : Agree Hashes.plain kept
    { goals := [⟨"part", [.Const (.Num 1), .Var "y"]⟩, ⟨"of", [.Var "y", .Var "z"]⟩] } := by
  have hnegated : ∀ rule ∈ kept.rules, ∀ goal ∈ rule.body, goal.is_negated = true →
      goal.atom.predicate = "out" := by decide
  have hheads : ∀ rule ∈ kept.rules, rule.head.predicate = "part" := by decide
  apply magic_agrees_where_followed Hashes.plain kept _ (noPipeline_iff.mpr rfl)
    (by unfold Program.GroundFacts; decide) (by decide)
  · rintro ⟨src, tgt, hd, hpath⟩
    have hsrc : ∀ src tgt, kept.Depends src tgt true → src = "out" := by
      rintro src tgt ⟨rule, hr, goal, hg, rfl, _, hneg⟩
      exact hnegated rule hr goal hg hneg
    have htgt : ∀ src tgt neg, kept.Depends src tgt neg → tgt = "part" := by
      rintro src tgt neg ⟨rule, hr, goal, hg, _, rfl, _⟩
      exact hheads rule hr
    have hout := hsrc src tgt hd
    rcases Relation.ReflTransGen.cases_tail hpath with he | ⟨mid, _, neg, hlast⟩
    · rw [htgt src tgt true hd, hout] at he
      exact absurd he (by decide)
    · rw [htgt mid src neg hlast] at hout
      exact absurd hout (by decide)
  · refine .inr ⟨_, _, rfl, ?_, ?_, ?_⟩
    · intro pred hm hmade
      exact (by decide : ∀ pred ∈ kept.preds, ¬ MagicName pred) pred
        (Program.mem_preds.mpr hm) hmade.magicName
    · intro rule hr _ _ _ n hn hidb
      have hout : n.predicate = "out" := hnegated rule hr (.Negative n) hn rfl
      rw [hout] at hidb
      exact absurd hidb (by decide)
    · intro a ha
      rw [List.mem_singleton.mp ha]
      refine ⟨fun hmade => ?_, .inl (by decide)⟩
      exact (by decide : ¬ MagicName "of") hmade.magicName

/-- A rule that negates what another rule derives. -/
def negates : Program where
  rules :=
    [⟨⟨"r", [.Var "x"]⟩, [.Positive ⟨"p", [.Var "x"]⟩, .Negative ⟨"n", [.Var "x"]⟩]⟩,
     ⟨⟨"n", [.Var "x"]⟩, [.Positive ⟨"f", [.Var "x"]⟩]⟩]
  facts := [⟨"p", [.Const (.Num 1)]⟩, ⟨"f", [.Const (.Num 1)]⟩]

/-- A program in which the magic tuples of a goal rest on a negated one. -/
def orders : Program where
  rules :=
    [⟨⟨"r", [.Var "x"]⟩, [.Positive ⟨"p", [.Var "x"]⟩, .Positive ⟨"n", [.Var "x"]⟩]⟩,
     ⟨⟨"p", [.Var "x"]⟩, [.Positive ⟨"e", [.Var "x"]⟩, .Negative ⟨"n", [.Var "x"]⟩]⟩,
     ⟨⟨"n", [.Var "x"]⟩, [.Positive ⟨"f", [.Var "x"]⟩]⟩]
  facts := [⟨"e", [.Const (.Num 1)]⟩, ⟨"f", [.Const (.Num 1)]⟩]

/-- The rules of a negated predicate are dropped, and so are those of a later
goal; and a program that has strata can lose them in the rewrite. -/
theorem negation_differs :
    (∀ rule ∈ negates.rules, Safe rule) ∧ (∀ rule ∈ orders.rules, Safe rule) ∧
      answerCount (run_query 100 Hashes.plain negates
        { goals := [⟨"r", [.Const (.Num 1)]⟩] }) = some 0 ∧
      answerCount (run_query_via_magic_sets 100 Hashes.plain negates
        { goals := [⟨"r", [.Const (.Num 1)]⟩] }) = some 1 ∧
      answerCount (run_query 100 Hashes.plain negates
        { goals := [⟨"p", [.Const (.Num 1)]⟩, ⟨"n", [.Var "x"]⟩] }) = some 1 ∧
      answerCount (run_query_via_magic_sets 100 Hashes.plain negates
        { goals := [⟨"p", [.Const (.Num 1)]⟩, ⟨"n", [.Var "x"]⟩] }) = some 0 ∧
      answerCount (run_query 100 Hashes.plain orders
        { goals := [⟨"r", [.Const (.Num 1)]⟩] }) = some 0 ∧
      answerCount (run_query_via_magic_sets 100 Hashes.plain orders
        { goals := [⟨"r", [.Const (.Num 1)]⟩] }) = none := by
  refine ⟨by decide, by decide, by decide +kernel, by decide +kernel, by decide +kernel,
    by decide +kernel, by decide +kernel, by decide +kernel⟩

end paideia_as_shell_datalog
