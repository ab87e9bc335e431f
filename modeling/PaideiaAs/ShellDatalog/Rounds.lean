-- The rounds of a stratum: what one rule derives from the tuples of the last
-- round, and the loop, which ends with the least set that the rules of the
-- stratum keep.
import PaideiaAs.ShellDatalog.Instances

open Closure

namespace paideia_as_shell_datalog

/-- The tuples of a database as a set. -/
def Database.facts (db : Database) : Set Fact := {f | f ∈ db}

section

variable {hash : HashOrder Tuple} {db delta acc : Database} {rule : Rule} {σ : Valuation} {f : Fact}

/-- The positive pass narrows to the valuations that send the goals into the
database, without the pivot. -/
theorem denotes_positive_pass (pivot j : Nat) (goals : List BodyGoal) (bs : List Binding) :
    Denotes (positive_pass hash db pivot j goals bs) σ ↔ Denotes bs σ ∧
      ∀ i a, goals[i]? = some (.Positive a) → j + i ≠ pivot → Holds σ a db.facts := by
  induction goals generalizing j bs with
  | nil => simp [positive_pass]
  | cons goal goals ih =>
    -- the goals after the first one, from the next position on
    have hsplit : (∀ i a, (goal :: goals)[i]? = some (.Positive a) → j + i ≠ pivot →
          Holds σ a db.facts) ↔
        (∀ a, goal = .Positive a → j ≠ pivot → Holds σ a db.facts) ∧
        ∀ i a, goals[i]? = some (.Positive a) → j + 1 + i ≠ pivot → Holds σ a db.facts := by
      constructor
      · intro h
        refine ⟨fun a ha hj => h 0 a (by simp [ha]) hj, ?_⟩
        intro i a hi hj
        exact h (i + 1) a (by simpa using hi) (by omega)
      · rintro ⟨h₀, h₁⟩ i a hi hj
        cases i with
        | zero => exact h₀ a (by simpa using hi) hj
        | succ i => exact h₁ i a (by simpa using hi) (by omega)
    rw [hsplit]
    unfold positive_pass
    split
    · rename_i hj
      rw [ih]
      simp [hj]
    · rename_i hj
      cases goal with
      | Positive a =>
        simp only
        split
        · rename_i hempty
          have hnot : ¬ (Denotes bs σ ∧ Holds σ a db.facts) := by
            have := not_denotes_empty hempty σ
            rwa [denotes_extend] at this
          constructor
          · rintro ⟨b, hb, _⟩
            cases hb
          · rintro ⟨hbs, h₀, _⟩
            exact absurd ⟨hbs, h₀ a rfl hj⟩ hnot
        · rw [ih, denotes_extend, and_assoc]
          simp [hj, Database.facts]
      | Negative a =>
        simp only
        rw [ih]
        simp

theorem binds_positive_pass {x : String} (pivot j : Nat) (goals : List BodyGoal) (bs : List Binding)
    (h : Binds bs x ∨ ∃ i a, goals[i]? = some (.Positive a) ∧ j + i ≠ pivot ∧ x ∈ a.vars) :
    Binds (positive_pass hash db pivot j goals bs) x := by
  induction goals generalizing j bs with
  | nil =>
    rcases h with h | ⟨i, a, hi, _⟩
    · exact h
    · simp at hi
  | cons goal goals ih =>
    have hrest : Binds bs x ∨ (∃ a, goal = .Positive a ∧ j ≠ pivot ∧ x ∈ a.vars) ∨
        ∃ i a, goals[i]? = some (.Positive a) ∧ j + 1 + i ≠ pivot ∧ x ∈ a.vars := by
      rcases h with h | ⟨i, a, hi, hj, hx⟩
      · exact .inl h
      · cases i with
        | zero => exact .inr (.inl ⟨a, by simpa using hi, hj, hx⟩)
        | succ i => exact .inr (.inr ⟨i, a, by simpa using hi, by omega, hx⟩)
    unfold positive_pass
    split
    · rename_i hj
      apply ih
      rcases hrest with h | ⟨a, _, hne, _⟩ | h
      · exact .inl h
      · exact absurd hj hne
      · exact .inr h
    · cases goal with
      | Positive a =>
        simp only
        split
        · intro b hb
          cases hb
        · apply ih
          rcases hrest with h | ⟨a', ha, _, hx⟩ | h
          · exact .inl (binds_extend (.inl h))
          · cases ha
            exact .inl (binds_extend (.inr hx))
          · exact .inr h
      | Negative a =>
        apply ih
        rcases hrest with h | ⟨a', ha, _⟩ | h
        · exact .inl h
        · cases ha
        · exact .inr h

theorem mem_negation_pass (goals : List BodyGoal) (bs : List Binding) (b : Binding) :
    b ∈ negation_pass hash db goals bs ↔
      b ∈ bs ∧ ∀ a, .Negative a ∈ goals → negation_matches hash a db b = false := by
  induction goals generalizing bs with
  | nil => simp [negation_pass]
  | cons goal goals ih =>
    cases goal with
    | Positive a => simp [negation_pass, ih]
    | Negative a =>
      unfold negation_pass
      simp only
      have hfilter : b ∈ bs.filter (fun b => !negation_matches hash a db b) ↔
          b ∈ bs ∧ negation_matches hash a db b = false := by simp
      split
      · rename_i hempty
        rw [List.isEmpty_iff] at hempty
        rw [hempty] at hfilter
        simp only [List.mem_cons, BodyGoal.Negative.injEq, forall_eq_or_imp]
        constructor
        · intro h
          cases h
        · rintro ⟨hb, ha, _⟩
          exact absurd (hfilter.mpr ⟨hb, ha⟩) List.not_mem_nil
      · rw [ih, hfilter, and_assoc]
        simp

/-! ## One round of one rule -/

theorem mem_insert {f : Fact} (g : Fact) : f ∈ db.insert g.1 g.2 ↔ f ∈ db ∨ f = g := by
  unfold Database.insert
  split
  · rename_i h
    constructor
    · exact Or.inl
    · rintro (hf | rfl)
      · exact hf
      · exact h
  · simp

theorem mem_add_heads (head : Atom) (bs : List Binding) : f ∈ add_heads head db bs acc ↔
    f ∈ acc ∨ f ∉ db ∧ head.predicate = f.1 ∧ ∃ b ∈ bs, ground_atom head b = some f.2 := by
  unfold add_heads
  induction bs generalizing acc with
  | nil => simp
  | cons b bs ih =>
    rw [List.foldl_cons, ih]
    simp only [List.mem_cons, exists_eq_or_imp]
    cases hg : ground_atom head b with
    | none => simp
    | some t =>
      simp only [Option.some.injEq]
      by_cases hdb : (head.predicate, t) ∈ db
      · rw [if_pos hdb]
        constructor
        · rintro (h | ⟨h₁, h₂, h₃⟩)
          · exact .inl h
          · exact .inr ⟨h₁, h₂, .inr h₃⟩
        · rintro (h | ⟨h₁, h₂, rfl | h₃⟩)
          · exact .inl h
          · rw [h₂] at hdb
            exact absurd hdb h₁
          · exact .inr ⟨h₁, h₂, h₃⟩
      · rw [if_neg hdb, mem_insert (head.predicate, t)]
        constructor
        · rintro ((h | rfl) | ⟨h₁, h₂, h₃⟩)
          · exact .inl h
          · exact .inr ⟨hdb, rfl, .inl rfl⟩
          · exact .inr ⟨h₁, h₂, .inr h₃⟩
        · rintro (h | ⟨h₁, h₂, rfl | h₃⟩)
          · exact .inl (.inl h)
          · exact .inl (.inr (by rw [h₂]))
          · exact .inr ⟨h₁, h₂, h₃⟩

/-- A rule fires with the instance of its goal at the pivot equal to this
tuple. -/
def FiresAt (rule : Rule) (db : Database) (pivot_atom : Atom) (t : Tuple) (f : Fact) : Prop :=
  ∃ σ, Fires rule db.facts db.facts σ f ∧ pivot_atom.instantiate σ = some t

section

variable {pivot : Nat} {pivot_atom : Atom} {t : Tuple} {base : Binding} {bs : List Binding}

/-- From the tuple under the pivot, the positive pass leaves the valuations that satisfy
the positive goals. -/
theorem denotes_from_pivot (hp : rule.body[pivot]? = some (.Positive pivot_atom))
    (ht : (pivot_atom.predicate, t) ∈ db) (hu : unify_atom pivot_atom t Binding.new = some base)
    (σ : Valuation) : Denotes (positive_pass hash db pivot 0 rule.body [base]) σ ↔
      pivot_atom.instantiate σ = some t ∧ ∀ a, .Positive a ∈ rule.body → Holds σ a db.facts := by
  obtain ⟨hbase, -, -⟩ := unify_atom_some hu
  rw [denotes_positive_pass]
  have hone : Denotes [base] σ ↔ pivot_atom.instantiate σ = some t := by
    unfold Denotes
    simp [hbase, agrees_new σ]
  rw [hone]
  constructor
  · rintro ⟨hinst, hrest⟩
    refine ⟨hinst, ?_⟩
    intro a ha
    obtain ⟨i, hi⟩ := List.getElem?_of_mem ha
    by_cases hip : i = pivot
    · rw [hip, hp] at hi
      cases hi
      exact ⟨t, hinst, ht⟩
    · exact hrest i a hi (by omega)
  · rintro ⟨hinst, hrest⟩
    exact ⟨hinst, fun i a hi _ => hrest a (List.mem_of_getElem? hi)⟩

/-- It binds every variable of the positive goals. -/
theorem binds_from_pivot (hp : rule.body[pivot]? = some (.Positive pivot_atom))
    (hu : unify_atom pivot_atom t Binding.new = some base) {a : Atom}
    (ha : .Positive a ∈ rule.body) {x : String} (hx : x ∈ a.vars) :
    Binds (positive_pass hash db pivot 0 rule.body [base]) x := by
  obtain ⟨-, -, hbound⟩ := unify_atom_some hu
  apply binds_positive_pass
  obtain ⟨i, hi⟩ := List.getElem?_of_mem ha
  by_cases hip : i = pivot
  · left
    rw [hip, hp] at hi
    cases hi
    intro b hb
    rw [List.mem_singleton.mp hb]
    exact hbound x hx
  · exact .inr ⟨i, a, hi, by omega, hx⟩

/-- A binding that passes both passes gives what its valuations give. -/
theorem negation_pass_fires (hs : Safe rule)
    (hden : ∀ σ, Denotes bs σ ↔ pivot_atom.instantiate σ = some t ∧
      ∀ a, .Positive a ∈ rule.body → Holds σ a db.facts)
    (hbinds : ∀ a, .Positive a ∈ rule.body → ∀ x ∈ a.vars, Binds bs x) :
    (∃ b ∈ negation_pass hash db rule.body bs, rule.head.predicate = f.1 ∧
      ground_atom rule.head b = some f.2) ↔ FiresAt rule db pivot_atom t f := by
  have hhead : ∀ b ∈ bs, ∀ x ∈ rule.head.vars, (b x).isSome := by
    intro b hb x hx
    obtain ⟨a, ha, hxa⟩ := hs.head x hx
    exact hbinds a ha x hxa b hb
  have hnegative : ∀ b ∈ bs, ∀ n, .Negative n ∈ rule.body → ∀ x ∈ n.vars, (b x).isSome := by
    intro b hb n hn x hx
    obtain ⟨a, ha, hxa⟩ := hs.negative n hn x hx
    exact hbinds a ha x hxa b hb
  constructor
  · rintro ⟨b, hb, hpred, hground⟩
    obtain ⟨hb, hneg⟩ := (mem_negation_pass _ _ _).mp hb
    obtain ⟨σ, hσ⟩ := exists_agrees b
    obtain ⟨hinst, hpos⟩ := (hden σ).mp ⟨b, hb, hσ⟩
    refine ⟨σ, ⟨hpred, ?_, hpos, ?_⟩, hinst⟩
    · rw [← ground_atom_eq hσ (hhead b hb)]
      exact hground
    · intro n hn hholds
      have := (negation_matches_iff hash hσ (hnegative b hb n hn)).mpr hholds
      rw [hneg n hn] at this
      cases this
  · rintro ⟨σ, hfires, hinst⟩
    obtain ⟨b, hb, hσ⟩ := (hden σ).mpr ⟨hinst, hfires.positive⟩
    refine ⟨b, (mem_negation_pass _ _ _).mpr ⟨hb, ?_⟩, hfires.predicate, ?_⟩
    · intro n hn
      rw [Bool.eq_false_iff]
      intro hm
      exact hfires.negative n hn ((negation_matches_iff hash hσ (hnegative b hb n hn)).mp hm)
    · rw [ground_atom_eq hσ (hhead b hb)]
      exact hfires.head

theorem mem_derive_tuple (hs : Safe rule)
    (hp : rule.body[pivot]? = some (.Positive pivot_atom))
    (ht : (pivot_atom.predicate, t) ∈ db) :
    f ∈ derive_tuple hash rule db pivot pivot_atom acc t ↔
      f ∈ acc ∨ f ∉ db ∧ FiresAt rule db pivot_atom t f := by
  unfold derive_tuple
  cases hu : unify_atom pivot_atom t Binding.new with
  | none =>
    constructor
    · exact Or.inl
    · rintro (h | ⟨_, σ, _, hσ⟩)
      · exact h
      · obtain ⟨b', hb'⟩ := unify_atom_isSome (agrees_new σ) hσ
        rw [hu] at hb'
        cases hb'
  | some base =>
    simp only
    have hgives : (∃ b ∈ negation_pass hash db rule.body
        (positive_pass hash db pivot 0 rule.body [base]), rule.head.predicate = f.1 ∧
          ground_atom rule.head b = some f.2) ↔ FiresAt rule db pivot_atom t f :=
      negation_pass_fires hs (denotes_from_pivot hp ht hu) fun a ha x hx =>
        binds_from_pivot hp hu ha hx
    rw [← hgives]
    generalize positive_pass hash db pivot 0 rule.body [base] = bs
    split
    · rename_i hempty
      rw [List.isEmpty_iff] at hempty
      simp [mem_negation_pass, hempty]
    · split
      · rename_i hempty
        rw [List.isEmpty_iff] at hempty
        simp [hempty]
      · rw [mem_add_heads]
        constructor
        · rintro (h | ⟨h₁, h₂, b, hb, h₃⟩)
          · exact .inl h
          · exact .inr ⟨h₁, b, hb, h₂, h₃⟩
        · rintro (h | ⟨h₁, b, hb, h₂, h₃⟩)
          · exact .inl h
          · exact .inr ⟨h₁, h₂, b, hb, h₃⟩

end

theorem mem_positive_positions {i : Nat} {a : Atom} :
    (i, a) ∈ positive_positions rule ↔ rule.body[i]? = some (.Positive a) := by
  unfold positive_positions
  rw [List.mem_filterMap]
  constructor
  · rintro ⟨⟨goal, j⟩, hmem, he⟩
    cases goal with
    | Positive b =>
      cases he
      exact List.mk_mem_zipIdx_iff_getElem?.mp hmem
    | Negative b => cases he
  · intro h
    exact ⟨(.Positive a, i), List.mk_mem_zipIdx_iff_getElem?.mpr h, rfl⟩

/-- A loop that adds, for each element, what has some property. -/
theorem mem_foldl {α : Type} {step : Database → α → Database} (P : α → Prop) (l : List α)
    (h : ∀ x ∈ l, ∀ acc, f ∈ step acc x ↔ f ∈ acc ∨ P x) (acc : Database) :
    f ∈ l.foldl step acc ↔ f ∈ acc ∨ ∃ x ∈ l, P x := by
  induction l generalizing acc with
  | nil => simp
  | cons x l ih =>
    rw [List.foldl_cons, ih fun y hy => h y (List.mem_cons_of_mem _ hy), h x (.head _), or_assoc]
    simp

/-- The rule fires, with a new fact under some goal. -/
def FiresNew (rule : Rule) (db delta : Database) (f : Fact) : Prop :=
  ∃ σ, Fires rule db.facts db.facts σ f ∧ ∃ a, .Positive a ∈ rule.body ∧ Holds σ a delta.facts

theorem mem_derive_round (hs : Safe rule) (hsub : ∀ g ∈ delta, g ∈ db) :
    f ∈ derive_round hash rule db delta acc ↔ f ∈ acc ∨ f ∉ db ∧ FiresNew rule db delta f := by
  unfold derive_round
  rw [mem_foldl fun pivot : Nat × Atom => ∃ t,
    t ∈ delta.get hash pivot.2.predicate pivot.2.arity ∧ f ∉ db ∧ FiresAt rule db pivot.2 t f]
  · constructor
    · rintro (h | ⟨⟨i, a⟩, hp, t, ht, hf, σ, hfires, hσ⟩)
      · exact .inl h
      · have ha := List.mem_of_getElem? (mem_positive_positions.mp hp)
        exact .inr ⟨hf, σ, hfires, a, ha, t, hσ, (mem_get.mp ht).1⟩
    · rintro (h | ⟨hf, σ, hfires, a, ha, t, hσ, ht⟩)
      · exact .inl h
      · obtain ⟨i, hi⟩ := List.getElem?_of_mem ha
        exact .inr ⟨(i, a), mem_positive_positions.mpr hi, t,
          mem_get.mpr ⟨ht, instantiate_length hσ⟩, hf, σ, hfires, hσ⟩
  · rintro ⟨i, a⟩ hp acc
    rw [mem_foldl fun t => f ∉ db ∧ FiresAt rule db a t f]
    intro t ht acc
    exact mem_derive_tuple hs (mem_positive_positions.mp hp) (hsub _ (mem_get.mp ht).1)

end

/-! ## The loop -/

section

variable {hash : HashOrder Tuple} {rules : List Rule}

/-- What one turn of the loop finds that is new. -/
def turn (hash : HashOrder Tuple) (rules : List Rule) (db delta : Database) : Database :=
  (rules.foldl (fun delta_new rule => derive_round hash rule db delta delta_new) []).filter
    fun f => f ∉ db

def merge (db delta : Database) : Database := delta.foldl (fun db f => db.insert f.1 f.2) db

theorem seminaive_loop_succ (fuel : Nat) (db delta : Database) :
    seminaive_loop hash rules (fuel + 1) db delta =
      if (turn hash rules db delta).length = 0 then .ok (merge db (turn hash rules db delta))
      else seminaive_loop hash rules fuel (merge db (turn hash rules db delta))
        (turn hash rules db delta) := rfl

theorem mem_turn (hs : ∀ rule ∈ rules, Safe rule) {db delta : Database}
    (hsub : ∀ g ∈ delta, g ∈ db) {f : Fact} :
    f ∈ turn hash rules db delta ↔ f ∉ db ∧ ∃ rule ∈ rules, FiresNew rule db delta f := by
  unfold turn
  rw [List.mem_filter, mem_foldl fun rule => f ∉ db ∧ FiresNew rule db delta f]
  · simp only [List.not_mem_nil, false_or, decide_eq_true_eq]
    constructor
    · rintro ⟨⟨rule, hr, _, hn⟩, hf⟩
      exact ⟨hf, rule, hr, hn⟩
    · rintro ⟨hf, rule, hr, hn⟩
      exact ⟨⟨rule, hr, hf, hn⟩, hf⟩
  · intro rule hr acc
    exact mem_derive_round (hs rule hr) hsub

theorem mem_merge {db delta : Database} {f : Fact} : f ∈ merge db delta ↔ f ∈ db ∨ f ∈ delta := by
  unfold merge
  rw [mem_foldl fun g => f = g]
  · simp
  · intro g _ acc
    exact mem_insert g

end

end paideia_as_shell_datalog
