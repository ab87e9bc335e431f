-- Least sets closed under rule instances, as least fixpoints of the operator
-- of immediate consequences, and the rounds that reach them: a round that
-- looks only at the instances with a new fact in the body misses nothing.
import Mathlib.Order.FixedPoints
import Mathlib.Order.CompletePartialOrder
import Mathlib.Data.Finset.Card

namespace Closure

variable {F : Type}

/-- An instance of a rule: the facts it needs, and the fact it gives. -/
structure Inst (F : Type) where
  body : Set F
  head : F

/-- The facts of the base, and those that an instance gives from the set. -/
def immediate (I : Set (Inst F)) (base : Set F) : Set F →o Set F where
  toFun S := base ∪ {f | ∃ i ∈ I, i.head = f ∧ ∀ g ∈ i.body, g ∈ S}
  monotone' := by
    intro S T hST
    apply Set.union_subset_union_right
    rintro f ⟨i, hi, hf, hb⟩
    exact ⟨i, hi, hf, fun g hg => hST (hb g hg)⟩

/-- The least fixpoint of the operator. -/
noncomputable def least (I : Set (Inst F)) (base : Set F) : Set F := (immediate I base).lfp

variable {I J : Set (Inst F)} {base db delta new S : Set F}

theorem base_subset : base ⊆ least I base := by
  intro f hf
  unfold least
  rw [← OrderHom.map_lfp]
  exact .inl hf

theorem least_closed {i : Inst F} (hi : i ∈ I) (hb : ∀ g ∈ i.body, g ∈ least I base) :
    i.head ∈ least I base := by
  unfold least
  rw [← OrderHom.map_lfp]
  exact .inr ⟨i, hi, rfl, hb⟩

/-- What holds of the base, and of the head of an instance whose body is in
the least set and has it, holds of the least set. -/
theorem least_induct (hbase : ∀ f ∈ base, f ∈ S)
    (hstep : ∀ i ∈ I, (∀ g ∈ i.body, g ∈ least I base ∧ g ∈ S) → i.head ∈ S) :
    least I base ⊆ S := by
  have hle : (immediate I base).lfp ≤ least I base ∩ S := by
    apply OrderHom.lfp_le
    rintro f (hf | ⟨i, hi, rfl, hb⟩)
    · exact ⟨base_subset hf, hbase f hf⟩
    · exact ⟨least_closed hi fun g hg => (hb g hg).1, hstep i hi hb⟩
  exact fun f hf => (hle hf).2

theorem least_subset (hbase : base ⊆ S) (hstep : ∀ i ∈ I, (∀ g ∈ i.body, g ∈ S) → i.head ∈ S) :
    least I base ⊆ S :=
  least_induct hbase fun i hi hb => hstep i hi fun g hg => (hb g hg).2

/-- A fact of the least set is in the base or comes from an instance. -/
theorem least_cases {f : F} (hf : f ∈ least I base) :
    f ∈ base ∨ ∃ i ∈ I, i.head = f ∧ ∀ g ∈ i.body, g ∈ least I base := by
  unfold least at hf
  rw [← OrderHom.map_lfp] at hf
  exact hf

/-- A set between the base and the least set that every instance keeps. -/
theorem eq_least (hbase : base ⊆ S) (hsub : S ⊆ least I base)
    (hstep : ∀ i ∈ I, (∀ g ∈ i.body, g ∈ S) → i.head ∈ S) : S = least I base :=
  Set.Subset.antisymm hsub (least_subset hbase hstep)

/-! ## Rounds over the new facts -/

/-- Every instance whose body is all old gave its head already. -/
def Covered (I : Set (Inst F)) (db delta : Set F) : Prop :=
  ∀ i ∈ I, (∀ g ∈ i.body, g ∈ db ∧ g ∉ delta) → i.head ∈ db

/-- What a round gives that looks at the instances with a fact of `delta` in
the body. -/
structure Round (I : Set (Inst F)) (db delta new : Set F) : Prop where
  sound : ∀ f ∈ new, ∃ i ∈ I, i.head = f ∧ ∀ g ∈ i.body, g ∈ db
  complete : ∀ i ∈ I, (∀ g ∈ i.body, g ∈ db) → (∃ g ∈ i.body, g ∈ delta) →
    i.head ∈ db ∨ i.head ∈ new
  fresh : ∀ f ∈ new, f ∉ db

/-- At the start every fact is new, and no instance is without a body. -/
theorem Covered.start (h : ∀ i ∈ I, i.body.Nonempty) : Covered I db db := by
  intro i hi hb
  obtain ⟨g, hg⟩ := h i hi
  exact absurd (hb g hg).1 (hb g hg).2

theorem Covered.round (h : Covered I db delta) (hr : Round I db delta new) :
    Covered I (db ∪ new) new := by
  intro i hi hb
  have hdb : ∀ g ∈ i.body, g ∈ db := fun g hg => (hb g hg).1.resolve_right (hb g hg).2
  by_cases hd : ∃ g ∈ i.body, g ∈ delta
  · exact hr.complete i hi hdb hd
  · exact .inl (h i hi fun g hg => ⟨hdb g hg, fun hgd => hd ⟨g, hg, hgd⟩⟩)

theorem Round.subset_least (hr : Round I db delta new) (h : db ⊆ least I base) :
    db ∪ new ⊆ least I base := by
  rintro f (hf | hf)
  · exact h hf
  · obtain ⟨i, hi, rfl, hb⟩ := hr.sound f hf
    exact least_closed hi fun g hg => h (hb g hg)

/-- With nothing new the rounds are done. -/
theorem Covered.eq_least (h : Covered I db ∅) (hbase : base ⊆ db) (hsub : db ⊆ least I base) :
    db = least I base := by
  apply Closure.eq_least hbase hsub
  intro i hi hb
  exact h i hi fun g hg => ⟨hb g hg, fun hn => hn⟩

end Closure
