-- The models of a program and of its rewrite for a query: what the rewrite
-- derives for the predicates of the program the program derives too, and what
-- the program derives under a magic tuple the rewrite derives too.
import PaideiaAs.ShellDatalog.Demand
import PaideiaAs.ShellDatalog.Stable

namespace paideia_as_shell_datalog

open List (mem_append mem_map)

/-! ## Magic atoms -/

section

variable {a m : Atom} {adr : Adornment} {σ : Valuation} {t : Tuple}

theorem build_magic_eq : build_magic_atom a adr = some m ↔ at_bound a.terms adr ≠ [] ∧
    m = { predicate := magic_pred_name a.predicate adr, terms := at_bound a.terms adr } := by
  unfold build_magic_atom
  simp only
  split
  · rename_i h
    rw [List.isEmpty_iff] at h
    simp [h]
  · rename_i h
    rw [List.isEmpty_iff] at h
    rw [Option.some.injEq]
    exact ⟨fun hm => ⟨h, hm.symm⟩, fun hm => hm.2.symm⟩

theorem at_bound_cons {α : Type} (x : α) (xs : List α) (b : Bool) (adr : Adornment) :
    at_bound (x :: xs) (b :: adr) = if b then x :: at_bound xs adr else at_bound xs adr := by
  unfold at_bound
  cases b <;> simp

theorem forall₂_at_bound {α β : Type} {R : α → β → Prop} {xs : List α} {ys : List β}
    (h : List.Forall₂ R xs ys) (adr : Adornment) :
    List.Forall₂ R (at_bound xs adr) (at_bound ys adr) := by
  induction h generalizing adr with
  | nil => simp [at_bound]
  | @cons x y xs ys hxy _ ih =>
    cases adr with
    | nil => simp [at_bound]
    | cons b adr =>
      rw [at_bound_cons, at_bound_cons]
      cases b
      · exact ih adr
      · exact List.Forall₂.cons hxy (ih adr)

/-- The instance of the magic atom is what the instance of the atom has at the
bound positions. -/
theorem instantiate_magic (h : a.instantiate σ = some t) (hm : build_magic_atom a adr = some m) :
    m.instantiate σ = some (at_bound t adr) := by
  obtain ⟨_, rfl⟩ := build_magic_eq.mp hm
  exact instantiate_eq.mpr (forall₂_at_bound (instantiate_eq.mp h) adr)

theorem mem_head_bound_vars {x : String} :
    x ∈ head_bound_vars a adr ↔ Term.Var x ∈ at_bound a.terms adr := by
  have h : head_bound_vars a adr = Atom.vars { a with terms := at_bound a.terms adr } := rfl
  rw [h, Atom.mem_vars]

theorem mem_at_bound {α : Type} {x : α} {xs : List α} (h : x ∈ at_bound xs adr) : x ∈ xs := by
  unfold at_bound at h
  obtain ⟨⟨y, b⟩, hy, rfl⟩ := mem_map.mp h
  exact (List.of_mem_zip (List.mem_of_mem_filter hy)).1

theorem mem_at_bound_computed {u : Term} {bound_vars : List String}
    (h : u ∈ at_bound a.terms (compute_adornment a bound_vars)) :
    (∃ v, u = .Const v) ∨ ∃ x ∈ bound_vars, u = .Var x := by
  unfold at_bound compute_adornment at h
  obtain ⟨⟨u', b⟩, hmem, rfl⟩ := mem_map.mp h
  rw [List.mem_filter] at hmem
  obtain ⟨hzip, hb⟩ := hmem
  rw [List.zip_map_right, mem_map] at hzip
  obtain ⟨⟨w, w'⟩, hww, he⟩ := hzip
  have hsame : w = w' := by
    obtain ⟨i, hi, hget⟩ := List.getElem_of_mem hww
    rw [List.getElem_zip] at hget
    cases hget
    rfl
  subst hsame
  cases he
  cases w with
  | Const v => exact .inl ⟨v, rfl⟩
  | Var x => exact .inr ⟨x, by simpa using hb, rfl⟩
  | Bound x => simp at hb

theorem is_ground_iff : a.is_ground = true ↔ ∀ u ∈ a.terms, ∃ v, u = .Const v := by
  unfold Atom.is_ground
  rw [List.all_eq_true]
  constructor
  · intro h u hu
    have := h u hu
    cases u with
    | Const v => exact ⟨v, rfl⟩
    | Var x => cases this
    | Bound x => cases this
  · intro h u hu
    obtain ⟨v, rfl⟩ := h u hu
    rfl

theorem instantiate_ground (h : a.is_ground = true) : a.instantiate σ = a.as_ground := by
  unfold Atom.instantiate Atom.as_ground
  apply mapM_congr
  intro u hu
  obtain ⟨v, rfl⟩ := is_ground_iff.mp h u hu
  rfl

theorem mapM_isSome {α β : Type} {f : α → Option β} {l : List α} (h : ∀ x ∈ l, (f x).isSome) :
    (l.mapM f).isSome := by
  induction l with
  | nil => rfl
  | cons x l ih =>
    obtain ⟨b, hb⟩ := Option.isSome_iff_exists.mp (h x (.head _))
    obtain ⟨bs, hbs⟩ := Option.isSome_iff_exists.mp (ih fun y hy => h y (.tail _ hy))
    rw [List.mapM_cons, hb, hbs]
    rfl

theorem as_ground_isSome (h : a.is_ground = true) : a.as_ground.isSome := by
  unfold Atom.as_ground
  apply mapM_isSome
  intro u hu
  obtain ⟨v, rfl⟩ := is_ground_iff.mp h u hu
  rfl

theorem magic_pred_name_ne (pred : String) (adr : Adornment) : magic_pred_name pred adr ≠ pred := by
  intro h
  have hlen := congrArg (fun s => s.toList.length) h
  unfold magic_pred_name at hlen
  simp only [String.toList_append, List.length_append] at hlen
  have hsix : "magic_".toList.length = 6 := rfl
  omega

end

/-! ## The two models -/

section

variable {p : Program} {q_head : Atom} {adorned : List (String × Adornment)} {M M' : Set Fact}

theorem mem_idb {pred : String} : pred ∈ p.idb ↔ ∃ rule ∈ p.rules, rule.head.predicate = pred := by
  unfold Program.idb
  rw [mem_map]

/-- The name is one that the rewrite makes for the query. -/
def Made (p : Program) (q_head : Atom) (name : String) : Prop :=
  ∃ pred adr, Demanded p q_head pred adr ∧ name = magic_pred_name pred adr

/-- What is taken of the rewrite: it follows everything that is demanded, the
program has none of the names that it makes, and no negated goal of a rule that
it keeps is on a predicate with rules. -/
structure Rewriting (p : Program) (q_head : Atom) (adorned : List (String × Adornment)) : Prop where
  adorned_iff : ∀ pred adr, (pred, adr) ∈ adorned ↔ Demanded p q_head pred adr
  apart : ∀ pred, p.Mentions pred → ¬ Made p q_head pred
  negated : ∀ rule ∈ p.rules, ∀ adr, Demanded p q_head rule.head.predicate adr →
    adr.length = rule.head.terms.length → ∀ n, .Negative n ∈ rule.body → n.predicate ∉ p.idb

variable {rule : Rule} {adr : Adornment} {a : Atom}

theorem mentions_head (hr : rule ∈ p.rules) : p.Mentions rule.head.predicate :=
  .inr (.inl ⟨rule, hr, rfl⟩)

theorem mentions_goal (hr : rule ∈ p.rules) {goal : BodyGoal}
    (hg : goal ∈ rule.body) : p.Mentions goal.atom.predicate :=
  .inr (.inr ⟨rule, hr, goal, hg, rfl⟩)

/-- A query on a predicate without rules demands nothing else. -/
theorem demanded_of_not_idb (hq : q_head.predicate ∉ p.idb) {pred : String}
    (h : Demanded p q_head pred adr) : pred = q_head.predicate := by
  induction h with
  | query => rfl
  | body hr _ _ _ _ ih =>
    rw [← ih] at hq
    exact absurd (mem_idb.mpr ⟨_, hr, rfl⟩) hq

section

variable (h : Rewriting p q_head adorned)

include h

theorem Rewriting.query_not_made : ¬ Made p q_head q_head.predicate := by
  intro hg
  by_cases hq : q_head.predicate ∈ p.idb
  · obtain ⟨rule, hr, he⟩ := mem_idb.mp hq
    exact h.apart _ (he ▸ mentions_head hr) hg
  · obtain ⟨pred, adr, hd, he⟩ := hg
    rw [demanded_of_not_idb hq hd] at he
    exact magic_pred_name_ne _ _ he.symm

omit h in
theorem mem_stated_rewritten {f : Fact} (h : f ∈ p.stated) :
    f ∈ (rewritten p q_head adorned).stated := by
  obtain ⟨a, ha, hp, hg⟩ := h
  exact ⟨a, mem_rewritten_facts.mpr (.inl ha), hp, hg⟩

theorem stated_rewritten {f : Fact}
    (hf : f ∈ (rewritten p q_head adorned).stated) : f ∈ p.stated ∨ Made p q_head f.1 := by
  obtain ⟨a, ha, hp, hg⟩ := hf
  rcases mem_rewritten_facts.mp ha with ha | ⟨rule, adr, pre, b, hs, _, _⟩ | ha
  · exact .inl ⟨a, ha, hp, hg⟩
  · right
    obtain ⟨_, rfl⟩ := build_magic_eq.mp hs.asked.magic
    exact ⟨_, _, (h.adorned_iff _ _).mp hs.asked.adorned, hp.symm⟩
  · right
    unfold query_seed at ha
    simp only at ha
    split at ha
    · cases ha
    · split at ha
      · rw [List.mem_singleton.mp ha] at hp
        exact ⟨_, _, Demanded.query, hp.symm⟩
      · cases ha

theorem Rewriting.supplied_made {pre : List BodyGoal} {m : Atom}
    (hs : Supplied p adorned rule adr pre a m) :
    Made p q_head m.predicate := by
  obtain ⟨_, rfl⟩ := build_magic_eq.mp hs.asked.magic
  exact ⟨_, _, (h.adorned_iff _ _).mp hs.asked.adorned, rfl⟩

/-- What the rewrite derives for a predicate that it did not make, the program
derives. -/
theorem magic_sound (hM : Stable p M) (hM' : Stable (rewritten p q_head adorned) M') :
    M' ⊆ {f | Made p q_head f.1 ∨ f ∈ M} := by
  apply hM'.induct
  · intro f hf
    rcases stated_rewritten h hf with hf | hf
    · exact .inr (hM.stated hf)
    · exact .inl hf
  · intro r hr σ f hfires
    rcases mem_rewritten_rules.mp hr with ⟨rule, hrule, adr, hadr, hl, rfl⟩ |
      ⟨rule, adr, pre, a, m, hs, _, rfl⟩
    · -- a guarded rule: without the guard it fires in the model of the program
      right
      refine hM.closed hrule ⟨hfires.predicate, hfires.head, ?_, ?_⟩
      · intro a ha
        apply (hfires.positive a (List.mem_append_right _ ha)).mono
        rintro g ⟨_, hg | hg⟩ hp
        · rw [hp] at hg
          exact absurd hg (h.apart _ (mentions_goal hrule ha))
        · exact hg
      · intro n hn hholds
        apply hfires.negative n (List.mem_append_right _ hn)
        apply hholds.mono
        intro g hg hp
        have hidb := h.negated rule hrule adr ((h.adorned_iff _ _).mp hadr) hl n hn
        have hst := hM.stated_of_no_rule hg fun r' hr' he =>
          hidb (mem_idb.mpr ⟨r', hr', he.trans hp⟩)
        exact hM'.stated (mem_stated_rewritten hst)
    · left
      rw [← hfires.predicate]
      exact h.supplied_made hs

end

/-- The magic tuple of the fact under the adornment is there, if there is one. -/
def Opens (M' : Set Fact) (adr : Adornment) (f : Fact) : Prop :=
  at_bound f.2 adr = [] ∨ (magic_pred_name f.1 adr, at_bound f.2 adr) ∈ M'

/-- With the magic tuple of an instance there, its guard holds. -/
theorem Opens.guard {m : Atom} {σ : Valuation} {t : Tuple}
    (h : Opens M' adr (a.predicate, t)) (ht : a.instantiate σ = some t)
    (hm : build_magic_atom a adr = some m) : Holds σ m M' := by
  have hinst := instantiate_magic ht hm
  obtain ⟨hne, rfl⟩ := build_magic_eq.mp hm
  refine ⟨_, hinst, ?_⟩
  rcases h with hnil | hmem
  · have hlen := (forall₂_at_bound (instantiate_eq.mp ht) adr).length_eq
    simp only at hnil
    rw [hnil, List.length_nil, List.length_eq_zero_iff] at hlen
    exact absurd hlen hne
  · exact hmem

theorem opens_goal (h : Rewriting p q_head adorned) (hM' : Stable (rewritten p q_head adorned) M')
    (hr : rule ∈ p.rules) (hd : Demanded p q_head rule.head.predicate adr)
    (hl : adr.length = rule.head.terms.length)
    {pre post : List BodyGoal} (hb : rule.body = pre ++ .Positive a :: post)
    (hi : a.predicate ∈ p.idb) {σ : Valuation} {u : Tuple} (hu : a.instantiate σ = some u)
    (hguard : ∀ m, build_magic_atom rule.head adr = some m → Holds σ m M')
    (hpre : ∀ b ∈ positives pre, Holds σ b M') :
    Opens M' (compute_adornment a (bound_before rule adr pre)) (a.predicate, u) := by
  cases hm : build_magic_atom a (compute_adornment a (bound_before rule adr pre)) with
  | none =>
    left
    have hlen := (forall₂_at_bound (instantiate_eq.mp hu)
      (compute_adornment a (bound_before rule adr pre))).length_eq
    by_contra hne
    have hterms : at_bound a.terms (compute_adornment a (bound_before rule adr pre)) ≠ [] := by
      intro hnil
      rw [hnil, List.length_nil, eq_comm, List.length_eq_zero_iff] at hlen
      exact hne hlen
    rw [build_magic_eq.mpr ⟨hterms, rfl⟩] at hm
    cases hm
  | some m =>
    right
    have hinst := instantiate_magic hu hm
    have hsup : Supplied p adorned rule adr pre a m :=
      ⟨hr, (h.adorned_iff _ _).mpr hd, hl, ⟨post, hb⟩, hi,
        (h.adorned_iff _ _).mpr (Demanded.body hr hd hl hb hi), hm⟩
    have hname : m.predicate =
        magic_pred_name a.predicate (compute_adornment a (bound_before rule adr pre)) := by
      obtain ⟨_, rfl⟩ := build_magic_eq.mp hm
      rfl
    rw [← hname]
    by_cases hempty : magic_body (build_magic_atom rule.head adr) (positives pre) = []
    · -- nothing is bound before the goal, so its bound arguments are constants
      unfold magic_body at hempty
      rw [List.map_eq_nil_iff, List.append_eq_nil_iff] at hempty
      have hbound : bound_before rule adr pre = [] := by
        unfold bound_before
        rw [hempty.2, List.flatMap_nil, List.append_nil]
        rw [List.eq_nil_iff_forall_not_mem]
        intro x hx
        have hne : at_bound rule.head.terms adr ≠ [] :=
          List.ne_nil_of_mem (mem_head_bound_vars.mp hx)
        rw [build_magic_eq.mpr ⟨hne, rfl⟩] at hempty
        cases hempty.1
      have hground : m.is_ground = true := by
        obtain ⟨_, rfl⟩ := build_magic_eq.mp hm
        rw [is_ground_iff]
        intro v hv
        rcases mem_at_bound_computed hv with hv | ⟨x, hx, _⟩
        · exact hv
        · rw [hbound] at hx
          cases hx
      apply hM'.stated
      refine ⟨m, mem_rewritten_facts.mpr (.inr (.inl ⟨rule, adr, pre, a, hsup, ?_, hground⟩)),
        rfl, ?_⟩
      · unfold magic_body
        rw [List.map_eq_nil_iff, List.append_eq_nil_iff]
        exact hempty
      · rw [← instantiate_ground hground]
        exact hinst
    · refine hM'.closed (mem_rewritten_rules.mpr
        (.inr ⟨rule, adr, pre, a, m, hsup, hempty, rfl⟩)) ⟨rfl, hinst, ?_, ?_⟩
      · intro b hb
        unfold magic_body at hb
        rw [mem_map] at hb
        obtain ⟨b', hb', he⟩ := hb
        cases he
        rcases mem_append.mp hb' with hg | hg
        · exact hguard b (by simpa using hg)
        · exact hpre b hg
      · intro n hn
        unfold magic_body at hn
        rw [mem_map] at hn
        obtain ⟨_, _, he⟩ := hn
        cases he

/-- What the program derives for a demanded predicate, the rewrite derives
where the magic tuple is there. -/
theorem magic_complete (h : Rewriting p q_head adorned) (hM : Stable p M)
    (hM' : Stable (rewritten p q_head adorned) M') :
    M ⊆ {f | ∀ adr, Demanded p q_head f.1 adr → adr.length = f.2.length → Opens M' adr f →
      f ∈ M'} := by
  apply hM.induct
  · intro f hf _ _ _ _
    exact hM'.stated (mem_stated_rewritten hf)
  · rintro rule hr σ ⟨pred, t⟩ ⟨rfl, hhead, hpos, hneg⟩ adr hd hl hopen
    have hlen : adr.length = rule.head.terms.length := by
      rw [hl]
      exact instantiate_length hhead
    have hguard : ∀ m, build_magic_atom rule.head adr = some m → Holds σ m M' :=
      fun m hm => hopen.guard hhead hm
    -- the goals from left to right, each with the goals before it
    have hgoals : ∀ k, ∀ pre a post, pre.length = k → rule.body = pre ++ .Positive a :: post →
        Holds σ a M' := by
      intro k
      induction k using Nat.strong_induction_on with
      | _ k ih =>
        intro pre a post hk hb
        have ha : .Positive a ∈ rule.body := by
          rw [hb]
          simp
        obtain ⟨u, hu, huM, huS⟩ := hpos a ha
        by_cases hi : a.predicate ∈ p.idb
        · have hpre : ∀ b ∈ positives pre, Holds σ b M' := by
            intro b hbpre
            obtain ⟨pre₁, pre₂, hsplit⟩ := List.append_of_mem (mem_positives.mp hbpre)
            apply ih pre₁.length _ pre₁ b (pre₂ ++ .Positive a :: post) rfl
            · rw [hb, hsplit]
              simp
            · rw [← hk, hsplit]
              simp
          have hda := Demanded.body hr hd hlen hb hi
          refine ⟨u, hu, huS _ hda ?_ (opens_goal h hM' hr hd hlen hb hi hu hguard hpre)⟩
          rw [compute_adornment_length]
          exact (instantiate_length hu).symm
        · have hst := hM.stated_of_no_rule huM fun r' hr' he => hi (mem_idb.mpr ⟨r', hr', he⟩)
          exact ⟨u, hu, hM'.stated (mem_stated_rewritten hst)⟩
    refine hM'.closed (mem_rewritten_rules.mpr (.inl ⟨rule, hr, adr,
      (h.adorned_iff _ _).mpr hd, hlen, rfl⟩)) ⟨rfl, hhead, ?_, ?_⟩
    · intro a ha
      rcases mem_append.mp ha with ha | ha
      · obtain ⟨m, hm, he⟩ := mem_map.mp ha
        cases he
        exact hguard a (by simpa using hm)
      · obtain ⟨pre, post, hb⟩ := List.append_of_mem ha
        exact hgoals pre.length pre a post rfl hb
    · intro n hn hholds
      have hn' : .Negative n ∈ rule.body := by
        rcases mem_append.mp hn with hn | hn
        · obtain ⟨_, _, he⟩ := mem_map.mp hn
          cases he
        · exact hn
      apply hneg n hn'
      apply hholds.mono
      intro g hg hp
      rcases magic_sound h hM hM' hg with hgen | hgM
      · rw [hp] at hgen
        exact absurd hgen (h.apart _ (mentions_goal hr hn'))
      · exact hgM

end

end paideia_as_shell_datalog
