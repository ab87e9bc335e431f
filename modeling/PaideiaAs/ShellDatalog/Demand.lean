-- What the rewrite of a query is made of: the adorned predicates that the
-- query demands, and which rules and facts the rewritten program has.
import PaideiaAs.ShellDatalog.MagicSets

namespace paideia_as_shell_datalog

open List (append_assoc mem_append mem_cons mem_flatMap mem_map mem_singleton)

/-- The variables bound before a goal: those of the bound positions of the
head and those of the positive goals before it. -/
def bound_before (rule : Rule) (adr : Adornment) (pre : List BodyGoal) : List String :=
  head_bound_vars rule.head adr ++ (positives pre).flatMap Atom.vars

/-- The query demands the predicate under the adornment. -/
inductive Demanded (p : Program) (q_head : Atom) : String → Adornment → Prop
  | query : Demanded p q_head q_head.predicate (query_adornment q_head)
  | body {rule : Rule} {adr : Adornment} {pre post : List BodyGoal} {a : Atom}
      (hr : rule ∈ p.rules) (hd : Demanded p q_head rule.head.predicate adr)
      (hl : adr.length = rule.head.terms.length) (hb : rule.body = pre ++ .Positive a :: post)
      (hi : a.predicate ∈ p.idb) :
      Demanded p q_head a.predicate (compute_adornment a (bound_before rule adr pre))

/-! ## The walks over a body -/

theorem mem_sip_goals {idb : List String} {x : String × Adornment} (body : List BodyGoal)
    (bound_vars : List String) : x ∈ sip_goals idb body bound_vars ↔
    ∃ pre a post, body = pre ++ .Positive a :: post ∧ a.predicate ∈ idb ∧
      x = (a.predicate, compute_adornment a (bound_vars ++ (positives pre).flatMap Atom.vars)) := by
  induction body generalizing bound_vars with
  | nil => simp [sip_goals]
  | cons goal body ih =>
    cases goal with
    | Negative n =>
      rw [sip_goals, ih]
      constructor
      · rintro ⟨pre, a, post, rfl, hi, hx⟩
        exact ⟨.Negative n :: pre, a, post, rfl, hi, hx⟩
      · rintro ⟨pre, a, post, hb, hi, hx⟩
        cases pre with
        | nil => cases hb
        | cons g pre =>
          cases hb
          exact ⟨pre, a, post, rfl, hi, hx⟩
    | Positive b =>
      rw [sip_goals, mem_append, ih]
      constructor
      · rintro (hx | ⟨pre, a, post, rfl, hi, hx⟩)
        · split at hx
          · rename_i hi
            refine ⟨[], b, body, rfl, hi, ?_⟩
            simpa using hx
          · cases hx
        · refine ⟨.Positive b :: pre, a, post, rfl, hi, ?_⟩
          simpa using hx
      · rintro ⟨pre, a, post, hb, hi, hx⟩
        cases pre with
        | nil =>
          cases hb
          left
          rw [if_pos hi]
          simpa using hx
        | cons g pre =>
          cases hb
          right
          exact ⟨pre, a, post, rfl, hi, by simpa using hx⟩

theorem mem_demands {p : Program} {pred : String} {adr : Adornment} {x : String × Adornment} :
    x ∈ p.demands pred adr ↔ ∃ rule ∈ p.rules, rule.head.predicate = pred ∧
      adr.length = rule.head.terms.length ∧ ∃ pre a post,
        rule.body = pre ++ .Positive a :: post ∧ a.predicate ∈ p.idb ∧
        x = (a.predicate, compute_adornment a (bound_before rule adr pre)) := by
  unfold Program.demands
  rw [mem_flatMap]
  constructor
  · rintro ⟨rule, hr, hx⟩
    split at hx
    · cases hx
    · rename_i hno
      rw [not_or, not_not, not_not] at hno
      exact ⟨rule, hr, hno.1, hno.2.symm, (mem_sip_goals _ _).mp hx⟩
  · rintro ⟨rule, hr, hp, hl, hx⟩
    refine ⟨rule, hr, ?_⟩
    rw [if_neg (by rw [not_or, not_not, not_not]; exact ⟨hp, hl.symm⟩)]
    exact (mem_sip_goals _ _).mpr hx

/-- A goal for which the walk makes a magic atom. -/
structure Asked (idb : List String) (adorned : List (String × Adornment)) (body : List BodyGoal)
    (bound_vars : List String) (pre : List BodyGoal) (a m : Atom) : Prop where
  place : ∃ post, body = pre ++ .Positive a :: post
  derived : a.predicate ∈ idb
  adorned : (a.predicate,
    compute_adornment a (bound_vars ++ (positives pre).flatMap Atom.vars)) ∈ adorned
  magic : build_magic_atom a
    (compute_adornment a (bound_vars ++ (positives pre).flatMap Atom.vars)) = some m

section

variable {idb : List String} {adorned : List (String × Adornment)} {guard : Option Atom}

theorem asked_negative {n : Atom} {body : List BodyGoal} {bound_vars : List String}
    {pre : List BodyGoal} {a m : Atom} :
    Asked idb adorned (.Negative n :: body) bound_vars pre a m ↔
      ∃ pre', pre = .Negative n :: pre' ∧ Asked idb adorned body bound_vars pre' a m := by
  constructor
  · rintro ⟨⟨post, hb⟩, hi, ha, hm⟩
    cases pre with
    | nil => cases hb
    | cons g pre =>
      cases hb
      exact ⟨pre, rfl, ⟨post, rfl⟩, hi, ha, hm⟩
  · rintro ⟨pre', rfl, ⟨post, rfl⟩, hi, ha, hm⟩
    exact ⟨⟨post, rfl⟩, hi, ha, hm⟩

theorem asked_positive {b : Atom} {body : List BodyGoal} {bound_vars : List String}
    {pre : List BodyGoal} {a m : Atom} :
    Asked idb adorned (.Positive b :: body) bound_vars pre a m ↔
      (pre = [] ∧ a = b ∧ b.predicate ∈ idb ∧
        (b.predicate, compute_adornment b bound_vars) ∈ adorned ∧
        build_magic_atom b (compute_adornment b bound_vars) = some m) ∨
      ∃ pre', pre = .Positive b :: pre' ∧
        Asked idb adorned body (bound_vars ++ b.vars) pre' a m := by
  constructor
  · rintro ⟨⟨post, hb⟩, hi, ha, hm⟩
    cases pre with
    | nil =>
      cases hb
      left
      simp only [positives_nil, List.flatMap_nil, List.append_nil] at ha hm
      exact ⟨rfl, rfl, hi, ha, hm⟩
    | cons g pre =>
      cases hb
      right
      simp only [positives_positive, List.flatMap_cons, ← append_assoc] at ha hm
      exact ⟨pre, rfl, ⟨post, rfl⟩, hi, ha, hm⟩
  · rintro (⟨rfl, rfl, hi, ha, hm⟩ | ⟨pre', rfl, ⟨post, rfl⟩, hi, ha, hm⟩)
    · refine ⟨⟨body, rfl⟩, hi, ?_, ?_⟩
      · simpa using ha
      · simpa using hm
    · refine ⟨⟨post, rfl⟩, hi, ?_, ?_⟩
      · simpa [append_assoc] using ha
      · simpa [append_assoc] using hm

/-- What the walk adds for the goal it stands on. -/
theorem supplementary_positive (idb : List String) (adorned : List (String × Adornment))
    (guard : Option Atom) (b : Atom) (body : List BodyGoal) (bound_vars : List String)
    (prev_body : List Atom) :
    (∀ r, r ∈ (supplementary idb adorned guard (.Positive b :: body) bound_vars prev_body).1 ↔
      (∃ m, (b.predicate ∈ idb ∧ (b.predicate, compute_adornment b bound_vars) ∈ adorned ∧
          build_magic_atom b (compute_adornment b bound_vars) = some m) ∧
        magic_body guard prev_body ≠ [] ∧ r = { head := m, body := magic_body guard prev_body }) ∨
      r ∈ (supplementary idb adorned guard body (bound_vars ++ b.vars) (prev_body ++ [b])).1) ∧
    ∀ f, f ∈ (supplementary idb adorned guard (.Positive b :: body) bound_vars prev_body).2 ↔
      ((b.predicate ∈ idb ∧ (b.predicate, compute_adornment b bound_vars) ∈ adorned ∧
          build_magic_atom b (compute_adornment b bound_vars) = some f) ∧
        magic_body guard prev_body = [] ∧ f.is_ground = true) ∨
      f ∈ (supplementary idb adorned guard body (bound_vars ++ b.vars) (prev_body ++ [b])).2 := by
  rw [supplementary]
  generalize supplementary idb adorned guard body (bound_vars ++ b.vars) (prev_body ++ [b]) = rest
  by_cases hc : b.predicate ∈ idb ∧ (b.predicate, compute_adornment b bound_vars) ∈ adorned
  · rw [if_pos hc]
    cases hm : build_magic_atom b (compute_adornment b bound_vars) with
    | none => simp
    | some m =>
      simp only [Option.some.injEq]
      by_cases hempty : magic_body guard prev_body = []
      · rw [if_pos (List.isEmpty_iff.mpr hempty)]
        refine ⟨by simp [hempty], ?_⟩
        intro f
        by_cases hground : m.is_ground = true
        · rw [if_pos hground, mem_cons]
          constructor
          · rintro (rfl | h)
            · exact .inl ⟨⟨hc.1, hc.2, rfl⟩, hempty, hground⟩
            · exact .inr h
          · rintro (⟨⟨_, _, rfl⟩, _⟩ | h)
            · exact .inl rfl
            · exact .inr h
        · rw [if_neg hground]
          constructor
          · exact Or.inr
          · rintro (⟨⟨_, _, rfl⟩, _, hf⟩ | h)
            · exact absurd hf hground
            · exact h
      · rw [if_neg (by rwa [List.isEmpty_iff])]
        refine ⟨?_, by simp [hempty]⟩
        intro r
        rw [mem_cons]
        constructor
        · rintro (rfl | h)
          · exact .inl ⟨m, ⟨hc.1, hc.2, rfl⟩, hempty, rfl⟩
          · exact .inr h
        · rintro (⟨_, ⟨_, _, rfl⟩, _, rfl⟩ | h)
          · exact .inl rfl
          · exact .inr h
  · rw [if_neg hc]
    constructor
    · intro r
      constructor
      · exact Or.inr
      · rintro (⟨_, ⟨h₁, h₂, _⟩, _⟩ | h)
        · exact absurd ⟨h₁, h₂⟩ hc
        · exact h
    · intro f
      constructor
      · exact Or.inr
      · rintro (⟨⟨h₁, h₂, _⟩, _⟩ | h)
        · exact absurd ⟨h₁, h₂⟩ hc
        · exact h

theorem mem_supplementary (body : List BodyGoal) (bound_vars : List String)
    (prev_body : List Atom) :
    (∀ r, r ∈ (supplementary idb adorned guard body bound_vars prev_body).1 ↔
      ∃ pre a m, Asked idb adorned body bound_vars pre a m ∧
        magic_body guard (prev_body ++ positives pre) ≠ [] ∧
        r = { head := m, body := magic_body guard (prev_body ++ positives pre) }) ∧
    ∀ f, f ∈ (supplementary idb adorned guard body bound_vars prev_body).2 ↔
      ∃ pre a, Asked idb adorned body bound_vars pre a f ∧
        magic_body guard (prev_body ++ positives pre) = [] ∧ f.is_ground = true := by
  induction body generalizing bound_vars prev_body with
  | nil =>
    have hno : ∀ pre a m, ¬ Asked idb adorned [] bound_vars pre a m := by
      rintro pre a m ⟨⟨post, hb⟩, _⟩
      cases pre <;> cases hb
    simp [supplementary, hno]
  | cons goal body ih =>
    cases goal with
    | Negative n =>
      obtain ⟨h₁, h₂⟩ := ih bound_vars prev_body
      rw [supplementary]
      simp only [asked_negative]
      constructor
      · intro r
        rw [h₁]
        constructor
        · rintro ⟨pre, a, m, h⟩
          exact ⟨.Negative n :: pre, a, m, ⟨pre, rfl, h.1⟩, h.2⟩
        · rintro ⟨_, a, m, ⟨pre, rfl, h⟩, h'⟩
          exact ⟨pre, a, m, h, h'⟩
      · intro f
        rw [h₂]
        constructor
        · rintro ⟨pre, a, h⟩
          exact ⟨.Negative n :: pre, a, ⟨pre, rfl, h.1⟩, h.2⟩
        · rintro ⟨_, a, ⟨pre, rfl, h⟩, h'⟩
          exact ⟨pre, a, h, h'⟩
    | Positive b =>
      obtain ⟨h₁, h₂⟩ := ih (bound_vars ++ b.vars) (prev_body ++ [b])
      obtain ⟨g₁, g₂⟩ := supplementary_positive idb adorned guard b body bound_vars prev_body
      simp only [asked_positive]
      have hassoc : ∀ pre, prev_body ++ [b] ++ positives pre =
          prev_body ++ positives (.Positive b :: pre) := by simp
      constructor
      · intro r
        rw [g₁, h₁]
        constructor
        · rintro (⟨m, hm, hne, rfl⟩ | ⟨pre, a, m, hask, hne, hr⟩)
          · exact ⟨[], b, m, .inl ⟨rfl, rfl, hm⟩, by simpa using hne, by simp⟩
          · rw [hassoc] at hne hr
            exact ⟨.Positive b :: pre, a, m, .inr ⟨pre, rfl, hask⟩, hne, hr⟩
        · rintro ⟨_, a, m, ⟨rfl, rfl, hm⟩ | ⟨pre, rfl, hask⟩, hne, hr⟩
          · exact .inl ⟨m, hm, by simpa using hne, by simpa using hr⟩
          · rw [← hassoc] at hne hr
            exact .inr ⟨pre, a, m, hask, hne, hr⟩
      · intro f
        rw [g₂, h₂]
        constructor
        · rintro (⟨hm, hne, hf⟩ | ⟨pre, a, hask, hne, hf⟩)
          · exact ⟨[], b, .inl ⟨rfl, rfl, hm⟩, by simpa using hne, hf⟩
          · rw [hassoc] at hne
            exact ⟨.Positive b :: pre, a, .inr ⟨pre, rfl, hask⟩, hne, hf⟩
        · rintro ⟨_, a, ⟨rfl, rfl, hm⟩ | ⟨pre, rfl, hask⟩, hne, hf⟩
          · exact .inl ⟨hm, by simpa using hne, hf⟩
          · rw [← hassoc] at hne
            exact .inr ⟨pre, a, hask, hne, hf⟩

end

/-! ## The search over adornments -/

section

variable {p : Program} {q_head : Atom}

/-- The adorned predicates that the search can ever meet. -/
def adornable (p : Program) (q_head : Atom) : Set (String × Adornment) :=
  {x | x = (q_head.predicate, query_adornment q_head) ∨ ∃ rule ∈ p.rules,
    ∃ a ∈ positives rule.body, x.1 = a.predicate ∧ x.2.length = a.terms.length}

theorem adornable_finite (p : Program) (q_head : Atom) : (adornable p q_head).Finite := by
  have hatoms : (⋃ a ∈ {a | a ∈ p.rules.flatMap fun rule => positives rule.body},
      Prod.mk a.predicate '' {l : Adornment | l.length = a.terms.length}).Finite := by
    apply (List.finite_toSet (p.rules.flatMap fun rule => positives rule.body)).biUnion
    intro a _
    exact (List.finite_length_eq Bool a.terms.length).image _
  apply ((Set.finite_singleton (q_head.predicate, query_adornment q_head)).union hatoms).subset
  rintro ⟨pred, adr⟩ (hx | ⟨rule, hr, a, ha, rfl, hl⟩)
  · exact .inl hx
  · right
    simp only [Set.mem_iUnion]
    exact ⟨a, mem_flatMap.mpr ⟨rule, hr, ha⟩, adr, hl, rfl⟩

theorem compute_adornment_length (a : Atom) (bound_vars : List String) :
    (compute_adornment a bound_vars).length = a.terms.length := by
  unfold compute_adornment
  exact List.length_map _

variable {x : String × Adornment} {adorned : List (String × Adornment)}

theorem demands_adornable {pred : String} {adr : Adornment} (h : x ∈ p.demands pred adr) :
    x ∈ adornable p q_head := by
  obtain ⟨rule, hr, _, _, pre, a, post, hb, _, rfl⟩ := mem_demands.mp h
  refine .inr ⟨rule, hr, a, ?_, rfl, compute_adornment_length _ _⟩
  rw [mem_positives, hb]
  simp

/-- The state of the search: everything in it is demanded, and what an
adorned predicate puts on the worklist is there or was taken from it. -/
structure Searching (p : Program) (q_head : Atom) (adorned worklist : List (String × Adornment)) :
    Prop where
  demanded : ∀ x, x ∈ adorned ∨ x ∈ worklist → Demanded p q_head x.1 x.2
  known : ∀ x, x ∈ adorned ∨ x ∈ worklist → x ∈ adornable p q_head
  followed : ∀ x ∈ adorned, ∀ y ∈ p.demands x.1 x.2, y ∈ adorned ∨ y ∈ worklist
  start : (q_head.predicate, query_adornment q_head) ∈ adorned ∨
    (q_head.predicate, query_adornment q_head) ∈ worklist

theorem Searching.skip {worklist : List (String × Adornment)}
    (h : Searching p q_head adorned (x :: worklist)) (hx : x ∈ adorned) :
    Searching p q_head adorned worklist := by
  have hback : ∀ y, y ∈ adorned ∨ y ∈ x :: worklist → y ∈ adorned ∨ y ∈ worklist := by
    rintro y (hy | hy)
    · exact .inl hy
    · rcases mem_cons.mp hy with rfl | hy
      · exact .inl hx
      · exact .inr hy
  have hforth : ∀ y, y ∈ adorned ∨ y ∈ worklist → y ∈ adorned ∨ y ∈ x :: worklist :=
    fun y hy => hy.imp_right (.tail _)
  exact ⟨fun y hy => h.demanded y (hforth y hy), fun y hy => h.known y (hforth y hy),
    fun y hy z hz => hback z (h.followed y hy z hz), hback _ h.start⟩

theorem Searching.take {worklist : List (String × Adornment)}
    (h : Searching p q_head adorned (x :: worklist)) :
    Searching p q_head (adorned ++ [x]) (worklist ++ p.demands x.1 x.2) := by
  have hx : Demanded p q_head x.1 x.2 := h.demanded x (.inr (.head _))
  have hsplit : ∀ y, y ∈ adorned ++ [x] ∨ y ∈ worklist ++ p.demands x.1 x.2 ↔
      (y ∈ adorned ∨ y ∈ x :: worklist) ∨ y ∈ p.demands x.1 x.2 := by
    intro y
    simp only [mem_append, mem_cons]
    tauto
  constructor
  · intro y hy
    rcases (hsplit y).mp hy with hy | hy
    · exact h.demanded y hy
    · obtain ⟨rule, hr, hp, hl, pre, a, post, hb, hi, rfl⟩ := mem_demands.mp hy
      rw [← hp] at hx
      exact Demanded.body hr hx hl hb hi
  · intro y hy
    rcases (hsplit y).mp hy with hy | hy
    · exact h.known y hy
    · exact demands_adornable hy
  · intro y hy z hz
    apply (hsplit z).mpr
    rcases mem_append.mp hy with hy | hy
    · exact .inl (h.followed y hy z hz)
    · rw [mem_singleton.mp hy] at hz
      exact .inr hz
  · exact (hsplit _).mpr (.inl h.start)

theorem Searching.done (h : Searching p q_head adorned [])
    (pred : String) (adr : Adornment) : (pred, adr) ∈ adorned ↔ Demanded p q_head pred adr := by
  have hall : ∀ x, x ∈ adorned ∨ x ∈ ([] : List (String × Adornment)) → x ∈ adorned := by simp
  constructor
  · exact fun hx => h.demanded _ (.inl hx)
  · intro hd
    induction hd with
    | query => exact hall _ h.start
    | body hr _ hl hb hi ih =>
      exact hall _ (h.followed _ ih _ (mem_demands.mpr ⟨_, hr, rfl, hl, _, _, _, hb, hi, rfl⟩))

/-- The search ends: a predicate taken from the worklist is one of the finitely
many, and is adorned only once. -/
theorem adorn_ends (U : Finset (String × Adornment)) (hU : ∀ x, x ∈ U ↔ x ∈ adornable p q_head)
    (c : Nat) (adorned : List (String × Adornment)) (hc : (U \ adorned.toFinset).card = c)
    (worklist : List (String × Adornment)) (h : Searching p q_head adorned worklist) :
    ∃ N out, (∀ fuel, N ≤ fuel → adorn p fuel adorned worklist = .ok out) ∧
      Searching p q_head out [] := by
  induction c using Nat.strong_induction_on generalizing adorned worklist with
  | _ c ihc =>
    induction worklist with
    | nil =>
      refine ⟨1, adorned, ?_, h⟩
      intro fuel hfuel
      obtain ⟨fuel, rfl⟩ : ∃ m, fuel = m + 1 := ⟨fuel - 1, by omega⟩
      rw [adorn]
    | cons x worklist ih =>
      by_cases hx : x ∈ adorned
      · obtain ⟨N, out, hrun, hout⟩ := ih (h.skip hx)
        refine ⟨N + 1, out, ?_, hout⟩
        intro fuel hfuel
        obtain ⟨fuel, rfl⟩ : ∃ m, fuel = m + 1 := ⟨fuel - 1, by omega⟩
        rw [adorn, if_pos hx]
        exact hrun fuel (by omega)
      · have hlt : (U \ (adorned ++ [x]).toFinset).card < c := by
          rw [← hc]
          apply Finset.card_lt_card
          rw [Finset.ssubset_iff_of_subset]
          · refine ⟨x, ?_, by simp⟩
            rw [Finset.mem_sdiff, hU, List.mem_toFinset]
            exact ⟨h.known x (.inr (.head _)), hx⟩
          · intro y hy
            rw [Finset.mem_sdiff, List.mem_toFinset] at hy ⊢
            exact ⟨hy.1, fun hc => hy.2 (List.mem_append_left _ hc)⟩
        obtain ⟨N, out, hrun, hout⟩ := ihc _ hlt (adorned ++ [x]) rfl _ h.take
        refine ⟨N + 1, out, ?_, hout⟩
        intro fuel hfuel
        obtain ⟨fuel, rfl⟩ : ∃ m, fuel = m + 1 := ⟨fuel - 1, by omega⟩
        rw [adorn, if_neg hx]
        exact hrun fuel (by omega)

theorem adorn_spec (p : Program) (q_head : Atom) : ∃ N out, (∀ fuel, N ≤ fuel →
        adorn p fuel [] [(q_head.predicate, query_adornment q_head)] = .ok out) ∧
      ∀ pred adr, (pred, adr) ∈ out ↔ Demanded p q_head pred adr := by
  have hstart : Searching p q_head [] [(q_head.predicate, query_adornment q_head)] := by
    refine ⟨?_, ?_, by simp, .inr (.head _)⟩
    · rintro x (hx | hx)
      · cases hx
      · rw [mem_singleton.mp hx]
        exact Demanded.query
    · rintro x (hx | hx)
      · cases hx
      · exact .inl (mem_singleton.mp hx)
  obtain ⟨N, out, hrun, hout⟩ := adorn_ends (adornable_finite p q_head).toFinset (by simp) _ []
    rfl _ hstart
  exact ⟨N, out, hrun, hout.done⟩

end

/-! ## The rules and facts of the rewritten program -/

section

variable {p : Program} {q_head : Atom} {adorned : List (String × Adornment)}

theorem mem_head_adornments {rule : Rule} {adr : Adornment} : adr ∈ head_adornments adorned rule ↔
    (rule.head.predicate, adr) ∈ adorned ∧ adr.length = rule.head.terms.length := by
  unfold head_adornments
  rw [mem_map]
  constructor
  · rintro ⟨⟨pred, adr'⟩, hx, rfl⟩
    simp only [List.mem_filter, decide_eq_true_eq] at hx
    obtain ⟨hmem, rfl, hl⟩ := hx
    exact ⟨hmem, hl⟩
  · rintro ⟨hmem, hl⟩
    refine ⟨(rule.head.predicate, adr), ?_, rfl⟩
    simp [hmem, hl]

/-- A goal of a rule under an adornment of its head for which there is a
magic atom. -/
structure Supplied (p : Program) (adorned : List (String × Adornment)) (rule : Rule)
    (adr : Adornment) (pre : List BodyGoal) (a m : Atom) : Prop where
  rule_mem : rule ∈ p.rules
  head_mem : (rule.head.predicate, adr) ∈ adorned
  length : adr.length = rule.head.terms.length
  asked : Asked p.idb adorned rule.body (head_bound_vars rule.head adr) pre a m

theorem mem_rewritten_rules {r : Rule} : r ∈ (rewritten p q_head adorned).rules ↔
    (∃ rule ∈ p.rules, ∃ adr, (rule.head.predicate, adr) ∈ adorned ∧
      adr.length = rule.head.terms.length ∧ r = guarded rule adr) ∨
    ∃ rule adr pre a m, Supplied p adorned rule adr pre a m ∧
      magic_body (build_magic_atom rule.head adr) (positives pre) ≠ [] ∧
      r = { head := m, body := magic_body (build_magic_atom rule.head adr) (positives pre) } := by
  unfold rewritten
  simp only [mem_flatMap, mem_map, mem_head_adornments]
  constructor
  · rintro ⟨_, ⟨rule, hr, adr, ⟨hmem, hl⟩, rfl⟩, hmem'⟩
    rcases mem_cons.mp hmem' with rfl | hs
    · exact .inl ⟨rule, hr, adr, hmem, hl, rfl⟩
    · obtain ⟨pre, a, m, hask, hne, rfl⟩ := ((mem_supplementary _ _ _).1 r).mp hs
      exact .inr ⟨rule, adr, pre, a, m, ⟨hr, hmem, hl, hask⟩, hne, rfl⟩
  · rintro (⟨rule, hr, adr, hmem, hl, rfl⟩ | ⟨rule, adr, pre, a, m, ⟨hr, hmem, hl, hask⟩, hne, rfl⟩)
    · exact ⟨_, ⟨rule, hr, adr, ⟨hmem, hl⟩, rfl⟩, .head _⟩
    · refine ⟨_, ⟨rule, hr, adr, ⟨hmem, hl⟩, rfl⟩, .tail _ ?_⟩
      exact ((mem_supplementary _ _ _).1 _).mpr ⟨pre, a, m, hask, hne, rfl⟩

theorem mem_rewritten_facts {f : Atom} : f ∈ (rewritten p q_head adorned).facts ↔
    f ∈ p.facts ∨ (∃ rule adr pre a, Supplied p adorned rule adr pre a f ∧
      magic_body (build_magic_atom rule.head adr) (positives pre) = [] ∧ f.is_ground = true) ∨
    f ∈ query_seed q_head := by
  unfold rewritten
  simp only [mem_append, mem_flatMap, mem_map, mem_head_adornments, or_assoc]
  constructor
  · rintro (h | ⟨_, ⟨rule, hr, adr, ⟨hmem, hl⟩, rfl⟩, hs⟩ | h)
    · exact .inl h
    · obtain ⟨pre, a, hask, hne, hf⟩ := ((mem_supplementary _ _ _).2 f).mp hs
      exact .inr (.inl ⟨rule, adr, pre, a, ⟨hr, hmem, hl, hask⟩, hne, hf⟩)
    · exact .inr (.inr h)
  · rintro (h | ⟨rule, adr, pre, a, ⟨hr, hmem, hl, hask⟩, hne, hf⟩ | h)
    · exact .inl h
    · refine .inr (.inl ⟨_, ⟨rule, hr, adr, ⟨hmem, hl⟩, rfl⟩, ?_⟩)
      exact ((mem_supplementary _ _ _).2 _).mpr ⟨pre, a, hask, hne, hf⟩
    · exact .inr (.inr h)

end

end paideia_as_shell_datalog
