-- What the rules of a program say: atoms under a valuation of the variables,
-- the instances of a rule, and the bindings of the evaluator as sets of
-- valuations.
import PaideiaAs.ShellDatalog.Eval
import PaideiaAs.Lib.Closure

open Closure

namespace paideia_as_shell_datalog

/-- A tuple of a predicate. -/
abbrev Fact := String × Tuple

abbrev Valuation := String → Value

def Term.eval (σ : Valuation) : Term → Option Value
  | .Const v => some v
  | .Var name => some (σ name)
  | .Bound _ => none

@[simp] theorem Term.eval_const (σ : Valuation) (v : Value) : (Term.Const v).eval σ = some v := rfl

@[simp] theorem Term.eval_var (σ : Valuation) (x : String) : (Term.Var x).eval σ = some (σ x) := rfl

@[simp] theorem Term.eval_bound (σ : Valuation) (x : String) : (Term.Bound x).eval σ = none := rfl

/-- The tuple of an atom under a valuation. -/
def Atom.instantiate (σ : Valuation) (a : Atom) : Option Tuple := a.terms.mapM (Term.eval σ)

/-- The instance of the atom is in the set. -/
def Holds (σ : Valuation) (a : Atom) (S : Set Fact) : Prop :=
  ∃ t, a.instantiate σ = some t ∧ (a.predicate, t) ∈ S

/-- A valuation under which the rule gives the fact from the set, with its
negated goals read in `neg`. -/
structure Fires (rule : Rule) (S neg : Set Fact) (σ : Valuation) (f : Fact) : Prop where
  predicate : rule.head.predicate = f.1
  head : rule.head.instantiate σ = some f.2
  positive : ∀ a, .Positive a ∈ rule.body → Holds σ a S
  negative : ∀ a, .Negative a ∈ rule.body → ¬ Holds σ a neg

/-- A rule that the evaluator can run: it has a positive goal, and every
variable of the head and of a negated goal is in a positive goal. -/
structure Safe (rule : Rule) : Prop where
  pivot : ∃ a, .Positive a ∈ rule.body
  head : ∀ x ∈ rule.head.vars, ∃ a, .Positive a ∈ rule.body ∧ x ∈ a.vars
  negative : ∀ n, .Negative n ∈ rule.body → ∀ x ∈ n.vars, ∃ a, .Positive a ∈ rule.body ∧ x ∈ a.vars

/-- The atoms of the positive goals of a body. -/
def positives (body : List BodyGoal) : List Atom :=
  body.filterMap fun
    | .Positive a => some a
    | .Negative _ => none

@[simp] theorem positives_nil : positives [] = [] := rfl

@[simp] theorem positives_positive (a : Atom) (body : List BodyGoal) :
    positives (.Positive a :: body) = a :: positives body := rfl

@[simp] theorem positives_negative (a : Atom) (body : List BodyGoal) :
    positives (.Negative a :: body) = positives body := rfl

variable {a : Atom} {σ : Valuation} {t : Tuple} {b : Binding}

theorem mem_positives {body : List BodyGoal} : a ∈ positives body ↔ .Positive a ∈ body := by
  unfold positives
  rw [List.mem_filterMap]
  constructor
  · rintro ⟨goal, hg, he⟩
    cases goal with
    | Positive b =>
      cases he
      exact hg
    | Negative b => cases he
  · intro h
    exact ⟨_, h, rfl⟩

theorem safe_iff {rule : Rule} : Safe rule ↔ positives rule.body ≠ [] ∧
    (∀ x ∈ rule.head.vars, x ∈ (positives rule.body).flatMap Atom.vars) ∧
    ∀ goal ∈ rule.body, goal.is_negated = true →
      ∀ x ∈ goal.atom.vars, x ∈ (positives rule.body).flatMap Atom.vars := by
  simp only [List.mem_flatMap, mem_positives]
  constructor
  · intro h
    refine ⟨?_, h.head, ?_⟩
    · obtain ⟨a, ha⟩ := h.pivot
      exact List.ne_nil_of_mem (mem_positives.mpr ha)
    · intro goal hg hn
      cases goal with
      | Positive a => cases hn
      | Negative a => exact h.negative a hg
  · rintro ⟨hp, hh, hn⟩
    refine ⟨?_, hh, fun n hmem => hn _ hmem rfl⟩
    obtain ⟨a, ha⟩ := List.exists_mem_of_ne_nil _ hp
    exact ⟨a, mem_positives.mp ha⟩

instance (rule : Rule) : Decidable (Safe rule) := decidable_of_iff _ safe_iff.symm

/-- The facts that the positive goals of a rule need under a valuation. -/
def Rule.needs (rule : Rule) (σ : Valuation) : Set Fact :=
  {g | ∃ a, .Positive a ∈ rule.body ∧ a.predicate = g.1 ∧ a.instantiate σ = some g.2}

/-- The instances of the rules whose negated goals fail in `neg`. -/
def instances (rules : List Rule) (neg : Set Fact) : Set (Inst Fact) :=
  {i | ∃ rule ∈ rules, ∃ σ, rule.head.predicate = i.head.1 ∧
    rule.head.instantiate σ = some i.head.2 ∧ i.body = rule.needs σ ∧
    (∀ a, .Positive a ∈ rule.body → (a.instantiate σ).isSome) ∧
    ∀ a, .Negative a ∈ rule.body → ¬ Holds σ a neg}

/-- An instance whose body is in a set is a valuation under which its rule
gives the head from the set. -/
theorem instances_iff {rules : List Rule} {neg S : Set Fact} {f : Fact} :
    (∃ i ∈ instances rules neg, i.head = f ∧ ∀ g ∈ i.body, g ∈ S) ↔
      ∃ rule ∈ rules, ∃ σ, Fires rule S neg σ f := by
  constructor
  · rintro ⟨i, ⟨rule, hr, σ, hp, hh, hb, hpos, hneg⟩, rfl, hS⟩
    refine ⟨rule, hr, σ, hp, hh, ?_, hneg⟩
    intro a ha
    obtain ⟨t, ht⟩ := Option.isSome_iff_exists.mp (hpos a ha)
    refine ⟨t, ht, hS _ ?_⟩
    rw [hb]
    exact ⟨a, ha, rfl, ht⟩
  · rintro ⟨rule, hr, σ, h⟩
    refine ⟨⟨rule.needs σ, f⟩, ⟨rule, hr, σ, h.predicate, h.head, rfl, ?_, h.negative⟩, rfl, ?_⟩
    · intro a ha
      obtain ⟨t, ht, _⟩ := h.positive a ha
      rw [ht]
      rfl
    · rintro g ⟨a, ha, hp, hg⟩
      obtain ⟨t, ht, hS⟩ := h.positive a ha
      rw [ht] at hg
      cases hg
      rw [hp] at hS
      exact hS

theorem Holds.mono {S T : Set Fact} (h : Holds σ a S)
    (hST : ∀ f ∈ S, f.1 = a.predicate → f ∈ T) : Holds σ a T := by
  obtain ⟨t, ht, hS⟩ := h
  exact ⟨t, ht, hST _ hS rfl⟩

/-! ## Atoms under a valuation -/

theorem mapM_eq_some {α β : Type} {f : α → Option β} {l : List α} {out : List β} :
    l.mapM f = some out ↔ List.Forall₂ (fun a b => f a = some b) l out := by
  induction l generalizing out with
  | nil => simp [eq_comm]
  | cons a l ih =>
    rw [List.mapM_cons]
    cases hfa : f a with
    | none =>
      simp only [Option.bind_eq_bind, Option.bind_none, List.forall₂_cons_left_iff, hfa]
      simp
    | some b =>
      simp only [Option.bind_eq_bind, Option.bind_some, List.forall₂_cons_left_iff, hfa,
        Option.bind_eq_some_iff, Option.pure_def, Option.some.injEq, ih]
      constructor
      · rintro ⟨out', h, rfl⟩
        exact ⟨b, out', rfl, h, rfl⟩
      · rintro ⟨_, out', rfl, h, rfl⟩
        exact ⟨out', h, rfl⟩

theorem mapM_congr {α β : Type} {f g : α → Option β} {l : List α} (h : ∀ a ∈ l, f a = g a) :
    l.mapM f = l.mapM g := by
  induction l with
  | nil => rfl
  | cons a l ih =>
    rw [List.mapM_cons, List.mapM_cons, h a List.mem_cons_self, ih fun b hb => h b (.tail _ hb)]

theorem instantiate_eq :
    a.instantiate σ = some t ↔ List.Forall₂ (fun u v => u.eval σ = some v) a.terms t :=
  mapM_eq_some

theorem instantiate_length (h : a.instantiate σ = some t) : t.length = a.arity :=
  (instantiate_eq.mp h).length_eq.symm

/-- Only the values of the variables of the atom matter. -/
theorem instantiate_congr {τ : Valuation} (h : ∀ x ∈ a.vars, σ x = τ x) :
    a.instantiate σ = a.instantiate τ := by
  unfold Atom.instantiate
  apply mapM_congr
  intro u hu
  cases u with
  | Const v => rfl
  | Var x =>
    rw [Term.eval_var, Term.eval_var, h x (Atom.mem_vars.mpr hu)]
  | Bound x => rfl

/-! ## Bindings as sets of valuations -/

/-- The valuation gives every bound variable the value of the binding. -/
def Agrees (σ : Valuation) (b : Binding) : Prop := ∀ x v, b x = some v → σ x = v

theorem agrees_new (σ : Valuation) : Agrees σ Binding.new := by
  intro x v h
  cases h

/-- Every binding has a valuation. -/
theorem exists_agrees (b : Binding) : ∃ σ, Agrees σ b := by
  refine ⟨fun x => (b x).getD (.Num 0), ?_⟩
  intro x v h
  simp only [h, Option.getD_some]

theorem agrees_update {x : String} {v : Value} (h : b x = none) :
    Agrees σ (Function.update b x (some v)) ↔ Agrees σ b ∧ σ x = v := by
  constructor
  · intro ha
    refine ⟨?_, ha x v (Function.update_self _ _ _)⟩
    intro y w hy
    apply ha y w
    rw [Function.update_of_ne _ _ _]
    · exact hy
    · rintro rfl
      rw [h] at hy
      cases hy
  · rintro ⟨ha, hx⟩ y w hy
    by_cases hyx : y = x
    · rw [hyx, Function.update_self] at hy
      cases hy
      rw [hyx, hx]
    · rw [Function.update_of_ne hyx] at hy
      exact ha y w hy

theorem unify_terms_spec (terms : List Term) (t : Tuple) (b : Binding)
    (hlen : terms.length = t.length) :
    (∀ b', unify_terms terms t b = some b' →
      (∀ σ, Agrees σ b' ↔ Agrees σ b ∧ List.Forall₂ (fun u v => u.eval σ = some v) terms t) ∧
      (∀ x, (b x).isSome → (b' x).isSome) ∧ ∀ x, Term.Var x ∈ terms → (b' x).isSome) ∧
    (unify_terms terms t b = none → ∀ σ, Agrees σ b →
      ¬ List.Forall₂ (fun u v => u.eval σ = some v) terms t) := by
  induction terms generalizing t b with
  | nil =>
    cases t with
    | nil => simp [unify_terms]
    | cons v t => cases hlen
  | cons u terms ih =>
    cases t with
    | nil => cases hlen
    | cons v t =>
      simp only [List.length_cons, Nat.add_right_cancel_iff] at hlen
      simp only [List.forall₂_cons, List.mem_cons]
      cases u with
      | Const c =>
        simp only [unify_terms, Term.eval_const, Option.some.injEq, reduceCtorEq, false_or]
        by_cases hcv : c = v
        · simpa only [hcv, ne_eq, not_true, if_false, true_and] using ih t b hlen
        · simp [hcv]
      | Bound c =>
        simp [unify_terms]
      | Var x =>
        simp only [unify_terms, Term.eval_var, Option.some.injEq, Term.Var.injEq]
        cases hb : b x with
        | none =>
          obtain ⟨hsome, hnone⟩ := ih t (Function.update b x (some v)) hlen
          constructor
          · intro b' hb'
            obtain ⟨h₁, h₂, h₃⟩ := hsome b' hb'
            refine ⟨?_, ?_, ?_⟩
            · intro σ
              rw [h₁, agrees_update hb, and_assoc]
            · intro y hy
              apply h₂
              by_cases hyx : y = x
              · rw [hyx, Function.update_self]
                rfl
              · rwa [Function.update_of_ne hyx]
            · rintro y (rfl | hy)
              · apply h₂
                rw [Function.update_self]
                rfl
              · exact h₃ y hy
          · rintro hn σ hσ ⟨hx, hrest⟩
            exact hnone hn σ ((agrees_update hb).mpr ⟨hσ, hx⟩) hrest
        | some w =>
          by_cases hwv : w = v
          · subst hwv
            obtain ⟨hsome, hnone⟩ := ih t b hlen
            simp only [ne_eq, not_true, if_false]
            constructor
            · intro b' hb'
              obtain ⟨h₁, h₂, h₃⟩ := hsome b' hb'
              refine ⟨?_, h₂, ?_⟩
              · intro σ
                rw [h₁]
                constructor
                · rintro ⟨hσ, hrest⟩
                  exact ⟨hσ, hσ x w hb, hrest⟩
                · rintro ⟨hσ, _, hrest⟩
                  exact ⟨hσ, hrest⟩
              · rintro y (rfl | hy)
                · apply h₂
                  rw [hb]
                  rfl
                · exact h₃ y hy
            · rintro hn σ hσ ⟨_, hrest⟩
              exact hnone hn σ hσ hrest
          · simp only [ne_eq, hwv, not_false_eq_true, if_true]
            constructor
            · intro b' hb'
              cases hb'
            · rintro _ σ hσ ⟨hx, _⟩
              exact hwv ((hσ x w hb).symm.trans hx)

theorem unify_atom_some {b' : Binding} (h : unify_atom a t b = some b') :
    (∀ σ, Agrees σ b' ↔ Agrees σ b ∧ a.instantiate σ = some t) ∧
      (∀ x, (b x).isSome → (b' x).isSome) ∧ ∀ x ∈ a.vars, (b' x).isSome := by
  unfold unify_atom at h
  split at h
  · cases h
  · rename_i hlen
    obtain ⟨h₁, h₂, h₃⟩ := (unify_terms_spec a.terms t b (by simpa using hlen)).1 b' h
    refine ⟨?_, h₂, fun x hx => h₃ x (Atom.mem_vars.mp hx)⟩
    intro σ
    rw [h₁, instantiate_eq]

theorem unify_atom_isSome (hσ : Agrees σ b) (h : a.instantiate σ = some t) :
    ∃ b', unify_atom a t b = some b' := by
  have hlen := (instantiate_eq.mp h).length_eq
  cases hu : unify_terms a.terms t b with
  | none => exact absurd (instantiate_eq.mp h) ((unify_terms_spec a.terms t b hlen).2 hu σ hσ)
  | some b' =>
    refine ⟨b', ?_⟩
    unfold unify_atom
    rw [if_neg (by simpa using hlen), hu]

/-- With its variables bound an atom has the tuple of any valuation of the
binding. -/
theorem ground_atom_eq (hσ : Agrees σ b)
    (hb : ∀ x ∈ a.vars, (b x).isSome) : ground_atom a b = a.instantiate σ := by
  unfold ground_atom Atom.instantiate
  apply mapM_congr
  intro u hu
  cases u with
  | Const v => rfl
  | Bound x => rfl
  | Var x =>
    obtain ⟨v, hv⟩ := Option.isSome_iff_exists.mp (hb x (Atom.mem_vars.mpr hu))
    unfold ground_term
    rw [Term.eval_var, hσ x v hv]
    exact hv

/-- The set of valuations of a list of bindings. -/
def Denotes (bs : List Binding) (σ : Valuation) : Prop := ∃ b ∈ bs, Agrees σ b

def Binds (bs : List Binding) (x : String) : Prop := ∀ b ∈ bs, (b x).isSome

theorem not_denotes_empty {bs : List Binding} (h : bs.isEmpty = true) (σ : Valuation) :
    ¬ Denotes bs σ := by
  rw [List.isEmpty_iff.mp h]
  rintro ⟨b, hb, _⟩
  cases hb

section

variable {hash : HashOrder Tuple} {db : Database} {a : Atom} {bs : List Binding}
  {σ : Valuation} {t : Tuple}

theorem mem_get {predicate : String} {arity : Nat} :
    t ∈ db.get hash predicate arity ↔ (predicate, t) ∈ db ∧ t.length = arity := by
  unfold Database.get
  rw [(hash.perm _).mem_iff, List.mem_map]
  constructor
  · rintro ⟨f, hf, rfl⟩
    simp only [List.mem_filter, decide_eq_true_eq] at hf
    obtain ⟨hf, rfl, hl⟩ := hf
    exact ⟨hf, hl⟩
  · rintro ⟨hf, hl⟩
    refine ⟨(predicate, t), ?_, rfl⟩
    simp [hf, hl]

theorem mem_extend {b' : Binding} : b' ∈ extend_with_db hash a db bs ↔
    ∃ b ∈ bs, ∃ t, (a.predicate, t) ∈ db ∧ t.length = a.arity ∧ unify_atom a t b = some b' := by
  unfold extend_with_db
  simp only [List.mem_flatMap, List.mem_filterMap, mem_get, and_assoc]

theorem denotes_extend : Denotes (extend_with_db hash a db bs) σ ↔
    Denotes bs σ ∧ Holds σ a {f | f ∈ db} := by
  constructor
  · rintro ⟨b', hb', hσ⟩
    obtain ⟨b, hb, t, hdb, _, hu⟩ := mem_extend.mp hb'
    obtain ⟨hb₁, ht⟩ := ((unify_atom_some hu).1 σ).mp hσ
    exact ⟨⟨b, hb, hb₁⟩, t, ht, hdb⟩
  · rintro ⟨⟨b, hb, hσ⟩, t, ht, hdb⟩
    obtain ⟨b', hu⟩ := unify_atom_isSome hσ ht
    refine ⟨b', mem_extend.mpr ⟨b, hb, t, hdb, instantiate_length ht, hu⟩, ?_⟩
    exact ((unify_atom_some hu).1 σ).mpr ⟨hσ, ht⟩

theorem binds_extend {x : String} (h : Binds bs x ∨ x ∈ a.vars) :
    Binds (extend_with_db hash a db bs) x := by
  intro b' hb'
  obtain ⟨b, hb, t, _, _, hu⟩ := mem_extend.mp hb'
  obtain ⟨_, h₂, h₃⟩ := unify_atom_some hu
  rcases h with h | h
  · exact h₂ x (h b hb)
  · exact h₃ x h

/-- With its variables bound, a negated goal fails to match exactly when its
instance is not there. -/
theorem negation_matches_iff (hash : HashOrder Tuple) {b : Binding} (hσ : Agrees σ b)
    (hb : ∀ x ∈ a.vars, (b x).isSome) :
    negation_matches hash a db b = true ↔ Holds σ a {f | f ∈ db} := by
  unfold negation_matches
  rw [List.any_eq_true]
  constructor
  · rintro ⟨t, ht, hu⟩
    obtain ⟨b', hu⟩ := Option.isSome_iff_exists.mp hu
    obtain ⟨τ, hτ⟩ := exists_agrees b'
    obtain ⟨hτb, hτt⟩ := ((unify_atom_some hu).1 τ).mp hτ
    refine ⟨t, ?_, (mem_get.mp ht).1⟩
    rw [← hτt]
    apply instantiate_congr
    intro x hx
    obtain ⟨v, hv⟩ := Option.isSome_iff_exists.mp (hb x hx)
    rw [hσ x v hv, hτb x v hv]
  · rintro ⟨t, ht, hdb⟩
    obtain ⟨b', hu⟩ := unify_atom_isSome hσ ht
    refine ⟨t, mem_get.mpr ⟨hdb, instantiate_length ht⟩, ?_⟩
    rw [hu]
    rfl

end

theorem reject_bound_ok : reject_bound a = .ok () ↔ ∀ x, Term.Bound x ∉ a.terms := by
  have key : ∀ terms, reject_bound_terms a terms = .ok () ↔ ∀ x, Term.Bound x ∉ terms := by
    intro terms
    induction terms with
    | nil => simp [reject_bound_terms]
    | cons u terms ih =>
      cases u with
      | Var x => simp [reject_bound_terms, ih]
      | Const v => simp [reject_bound_terms, ih]
      | Bound x =>
        simp only [reject_bound_terms, reduceCtorEq, false_iff]
        exact fun h => h x (.head _)
  exact key a.terms

theorem forM_reject_bound (as : List Atom) :
    as.forM reject_bound = .ok () ↔ ∀ a ∈ as, reject_bound a = .ok () := by
  induction as with
  | nil => simp [pure, Except.pure]
  | cons a as ih =>
    rw [List.forM_eq_forM, List.forM_cons, List.forall_mem_cons, ← ih]
    cases reject_bound a with
    | error e => simp [bind, Except.bind]
    | ok u => simp [bind, Except.bind]

end paideia_as_shell_datalog
