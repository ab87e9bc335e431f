-- Row unification makes the two types the same, where no step binds a variable
-- again or ties two tails to each other. The induction is over the calls of a run;
-- it goes along the run, and says what the bindings come from.
import PaideiaAs.ShellHm.RowRoles

open Assoc

namespace paideia_as_shell_hm

open RowType Substitution
open List (mem_append mem_append_left mem_append_right mem_cons mem_singleton)
open MonoType (Arrow Record Same Typed Var)

variable {n : Nat} {g g₁ g₂ : FreshVarGen} {V W T : List TypeVar} {P : List Substitution}
  {s s' s₁ s₁' s₂ s₃ sub : Substitution} {v x : TypeVar} {t t' a b : MonoType} {k : RowKind}
  {σ σ₁ : TypeVar → MonoType}

/-! ## Steps -/

namespace TailStep

/-- Each tail ends a row of the same kind in the extras that the other tail gets. -/
def Tangled (k : RowKind) (st : TailStep) : Prop :=
  ∃ av bv, st.a_tail = some av ∧ st.b_tail = some bv ∧ av ≠ bv ∧
    (∃ p ∈ st.b_only, p.2.Tail k bv) ∧ ∃ p ∈ st.a_only, p.2.Tail k av

/-- The state with the names given back, over what the shared fields bound there. -/
def renamed (sub : Substitution) (st : TailStep) : TailStep :=
  ⟨sub, renameFields nameOf st.a_only, renameFields nameOf st.b_only, st.a_tail.map nameOf,
    st.b_tail.map nameOf⟩

end TailStep

/-- The step binds nothing that is bound before, and its tails are not tied to each other. -/
def RunStep.Sound : RunStep → Prop
  | .bind before v t => (RunStep.bind before v t).Unbound
  | .tails before k st => (RunStep.tails before k st).Unbound ∧ ¬ st.Tangled k

def AllSound (steps : List RunStep) : Prop := ∀ st ∈ steps, st.Sound

theorem AllSound.append {before after : List RunStep} :
    AllSound (before ++ after) ↔ AllSound before ∧ AllSound after := by
  simp [AllSound, or_imp, forall_and]

/-! ## Runs -/

/-- A run over the names `V` found `s`, and `σ` is where the bindings that `s` comes
from lead to. -/
structure Run (T : List TypeVar) (P : List Substitution) (V : List TypeVar) (g g₁ : FreshVarGen)
    (s s' : Substitution) (σ : TypeVar → MonoType) : Prop where
  merged : Merged P s s'
  yields : Yields (kindOf T) V g.double g₁.double s'
  resolves : s'.Resolves (kindOf T) σ

/-- A run that makes the two types the same. -/
def Solved (T : List TypeVar) (P : List Substitution) (V : List TypeVar) (a b : MonoType)
    (g g₁ : FreshVarGen) (s : Substitution) : Prop :=
  ∃ s' σ, Run T P V g g₁ s s' σ ∧ (a.subst σ).Same (b.subst σ)

theorem Solved.widen (h : Solved T P V a b g g₁ s) (hVW : ∀ v ∈ V, v ∈ W) :
    Solved T P W a b g g₁ s := by
  obtain ⟨s', σ, hrun, hsame⟩ := h
  exact ⟨s', σ, ⟨hrun.merged, hrun.yields.sub hVW, hrun.resolves⟩, hsame⟩

theorem run_empty (T : List TypeVar) (P : List Substitution) (V : List TypeVar) (g : FreshVarGen) :
    ∃ σ, Run T P V g g .empty .empty σ := by
  have hY := Yields.empty (kindOf T) V g.double
  obtain ⟨σ, hσ⟩ := hY.settled.exists_resolves
  exact ⟨σ, merged_empty, hY, hσ⟩

namespace Run

variable (h : Run T P V g g₁ s s' σ)

include h

theorem le : g.next ≤ g₁.next := Nat.le_of_mul_le_mul_left h.yields.le Nat.two_pos

variable (hs : Scope T V g)

include hs

theorem mirror : Mirror T P s s' := h.merged.mirror h.yields hs

theorem applied (ht : t.Over (kindOf T) V) (ha : s.apply n (t.rename nameOf) = .ok t') :
    t' = (t.subst σ).rename nameOf := by
  obtain ⟨u, hu, rfl⟩ := (h.mirror hs).apply_ok ht.kinded (fun v hv => hs.live v (ht.vars v hv)) ha
  rw [h.yields.settled.apply_eq h.resolves ht.kinded hu]

/-- A call over what the run left. -/
theorem scope (ha : a.Over (kindOf T) V) (hb : b.Over (kindOf T) V) :
    Scope T ((a.subst σ).free_vars ++ (b.subst σ).free_vars) g₁ where
  types v hv := (hs.types v hv).trans_le h.le
  live x hx := hs.known (h.yields.left_free h.resolves ha hb x hx).1
  past x hx := (h.yields.left_free h.resolves ha hb x hx).1.lt hs.past h.yields.le

theorem extras {E out : Fields} (hE : ∀ p ∈ E, p.2.Over (kindOf T) V)
    (hout : refine_extras s n (renameFields nameOf E) = .ok out) :
    out = renameFields nameOf (E.map fun p => (p.1, p.2.subst σ)) := by
  induction E generalizing out with
  | nil =>
    cases hout
    rfl
  | cons p E ih =>
    simp only [refine_extras, renameFields, List.map_cons, List.mapM_cons, call_bind_ok,
      call_eq_ok] at hout
    obtain ⟨q, ⟨t, ht, hq⟩, rest, hrest, ho⟩ := hout
    cases hq
    cases ho
    rw [h.applied hs (hE p (.head _)) ht, ih (fun q hq => hE q (.tail _ hq)) hrest]
    rfl

end Run

/-! ## A tail step -/

theorem merged_singleton (hP : ∀ p ∈ P, p.lookup (nameOf x) = none) :
    Merged P (.singleton (nameOf x) (t.rename nameOf)) (.singleton x t) where
  lookup y u h := by
    obtain ⟨rfl, rfl⟩ := lookup_singleton_some h
    rw [lookup_singleton, if_pos rfl]
  bound v u h := by
    obtain ⟨rfl, rfl⟩ := lookup_singleton_some h
    exact ⟨x, t, by rw [lookup_singleton, if_pos rfl], rfl, rfl⟩
  apart y z u w hy hz _ := (lookup_singleton_some hy).1.trans (lookup_singleton_some hz).1.symm
  once p hp _ _ hv := (lookup_singleton_some hv).1 ▸ hP p hp

theorem merged_twoTails {av bv r : TypeVar} (hne : nameOf av ≠ nameOf bv) (A B : Fields)
    (hP : ∀ p ∈ P, p.lookup (nameOf av) = none ∧ p.lookup (nameOf bv) = none) :
    Merged P (twoTails k (nameOf av) (nameOf bv) r (renameFields nameOf A) (renameFields nameOf B))
      (twoTails k av bv ((Kind.row k).name r) A B) := by
  have hne' : av ≠ bv := fun e => hne (congrArg _ e)
  have hrow : ∀ E : Fields, (k.wrap (from_map E (some ((Kind.row k).name r)))).rename nameOf =
      k.wrap (from_map (renameFields nameOf E) (some r)) := by
    intro E
    rw [RowKind.wrap_rename, from_map_rename, Option.map_some, nameOf_name]
  refine ⟨?_, ?_, ?_, ?_⟩
  · intro x t h
    rcases lookup_twoTails h with ⟨rfl, rfl⟩ | ⟨rfl, rfl⟩ <;> rw [hrow]
    · exact lookup_twoTails_right
    · exact lookup_twoTails_left hne
  · intro v t h
    rcases lookup_twoTails h with ⟨rfl, rfl⟩ | ⟨rfl, rfl⟩
    · exact ⟨bv, _, lookup_twoTails_right, rfl, hrow A⟩
    · exact ⟨av, _, lookup_twoTails_left hne', rfl, hrow B⟩
  · intro x y t u hx hy hxy
    rcases lookup_twoTails hx with ⟨rfl, -⟩ | ⟨rfl, -⟩ <;>
      rcases lookup_twoTails hy with ⟨rfl, -⟩ | ⟨rfl, -⟩
    · rfl
    · exact absurd hxy.symm hne
    · exact absurd hxy hne
    · rfl
  · intro p hp v t h
    rcases lookup_twoTails h with ⟨rfl, -⟩ | ⟨rfl, -⟩
    · exact (hP p hp).2
    · exact (hP p hp).1

theorem Merged.tails_unbound {st : TailStep} (hm : Merged P sub st.subst)
    (hunb : ∀ v ∈ st.binds, ∀ p ∈ sub :: P, p.lookup (nameOf v) = none) : st.Unbound := by
  intro v hv
  rcases hb : st.subst.lookup v with _ | t
  · rfl
  · have hnone := hunb v hv sub (.head _)
    rw [hm.lookup v t hb] at hnone
    cases hnone

namespace Prepared

variable {a b : RowType} {st : TailStep} (h : Prepared (kindOf T) a b k g.double g₁.double st σ)

include h

/-- Tails of one kind have names of their own. -/
theorem tails_named {av bv : TypeVar} (hat : st.a_tail = some av) (hbt : st.b_tail = some bv)
    (hab : nameOf av = nameOf bv) : av = bv :=
  eq_of_kind (T := T) hab
    ((h.tail_known (.inl hat)).1.trans (h.tail_known (.inr hbt)).1.symm)

theorem binds_named (hv : v ∈ st.binds) : nameOf v ∈ (st.renamed sub).binds := by
  have hsame := fun av bv => @tails_named g g₁ T k σ a b st h av bv
  unfold TailStep.binds at hv ⊢
  unfold TailStep.renamed
  rcases hat : st.a_tail with _ | av <;> rcases hbt : st.b_tail with _ | bv <;>
    simp only [hat, hbt, Option.map_none, Option.map_some] at hv ⊢
  · cases hv
  · exact List.mem_map_of_mem (f := nameOf) hv
  · exact List.mem_map_of_mem (f := nameOf) hv
  · split at hv
    · cases hv
    · rename_i hne
      rw [if_neg fun e => hne (hsame av bv hat hbt e)]
      exact List.mem_map_of_mem (f := nameOf) hv

theorem uncrossed (hst : ¬ (st.renamed sub).Tangled k) : st.Uncrossed := by
  rintro av bv hat hbt hne ⟨hbv, hav⟩
  have htail : ∀ {E : Fields} {v}, (∀ p ∈ E, p.2.Kinded (kindOf T)) → kindOf T v = .row k →
      v ∈ extra_vars E → ∃ p ∈ renameFields nameOf E, p.2.Tail k (nameOf v) := by
    intro E v hE hk hv
    obtain ⟨p, hp, hv⟩ := mem_extra_vars.mp hv
    exact ⟨_, List.mem_map_of_mem hp, p.2.tail_rename ((p.2.tail_iff (hE p hp)).mpr ⟨hv, hk⟩)⟩
  refine hst ⟨nameOf av, nameOf bv, by rw [TailStep.renamed, hat]; rfl,
    by rw [TailStep.renamed, hbt]; rfl, fun e => hne (h.tails_named hat hbt e),
    htail (fun p hp => (h.b_extras.2 p hp).1) (h.tail_known (.inr hbt)).1 hbv,
    htail (fun p hp => (h.a_extras.2 p hp).1) (h.tail_known (.inl hat)).1 hav⟩

variable (hs : Scope T (a.free_vars ++ b.free_vars) g) (hm : Merged P sub st.subst)

include hs hm

theorem solved_by (h₂ : SolvedBy (kindOf T) a b k g.double g₂.double st s₁')
    (hm₂ : Merged (sub :: P) s₁ s₁') (hc : s₁.compose n sub = .ok s) :
    Solved T P (a.free_vars ++ b.free_vars) (k.wrap a) (k.wrap b) g g₂ s := by
  obtain ⟨hY, σ', hσ', hY', σ₃, hσ₃, hsame⟩ := h₂
  refine ⟨_, σ₃, ⟨(hm₂.mirror hY hs).compose (hm.mirror h.yields hs) hσ' hc, hY', hσ₃⟩, ?_⟩
  rwa [RowKind.subst_wrap, RowKind.subst_wrap]

theorem solved_one {av : TypeVar}
    (hunb : ∀ v ∈ st.binds, ∀ p ∈ sub :: P, p.lookup (nameOf v) = none)
    (hat : st.a_tail = some av) (hbt : st.b_tail = none) (hae : st.a_only = [])
    (hocc : nameOf av ∉ extra_vars (renameFields nameOf st.b_only))
    (hc : (Substitution.singleton (nameOf av) (k.wrap
      (from_map (renameFields nameOf st.b_only) none))).compose n sub = .ok s) :
    Solved T P (a.free_vars ++ b.free_vars) (k.wrap a) (k.wrap b) g g₁ s := by
  have hone := merged_singleton (t := k.wrap (from_map st.b_only none))
    (hunb av (by simp [TailStep.binds, hat, hbt]))
  rw [RowKind.wrap_rename, from_map_rename] at hone
  exact h.solved_by hs hm (h.solve_one (hm.tails_unbound hunb) hat hbt hae fun hv =>
    hocc (mem_extra_vars_rename hv)) hone hc

/-- A sound tail step makes the rows the same. -/
theorem solve (hst : (RunStep.tails P k (st.renamed sub)).Sound)
    (hsolve : (st.renamed sub).solve k n g₁ = .ok (s, g₂)) :
    Solved T P (a.free_vars ++ b.free_vars) (k.wrap a) (k.wrap b) g g₂ s := by
  have hunb : ∀ v ∈ st.binds, ∀ p ∈ sub :: P, p.lookup (nameOf v) = none := fun v hv p hp =>
    hst.1 p hp (nameOf v) (h.binds_named hv)
  have hnil : ∀ {m : Fields}, renameFields nameOf m = [] → m = [] := List.map_eq_nil_iff.mp
  have hquiet : st.a_only = [] → st.b_only = [] → st.a_tail = st.b_tail →
      Solved T P (a.free_vars ++ b.free_vars) (k.wrap a) (k.wrap b) g g₁ sub := by
    intro hae hbe ht
    refine ⟨st.subst, σ, ⟨hm, h.yields, h.resolves⟩, ?_⟩
    rw [RowKind.subst_wrap, RowKind.subst_wrap]
    exact h.same_of_no_extras hae hbe (by rw [← h.a_tail, ← h.b_tail, ht])
  cases solve_step hsolve with
  | closed ha hb hae hbe =>
    exact hquiet (hnil hae) (hnil hbe)
      ((Option.map_eq_none_iff.mp ha).trans (Option.map_eq_none_iff.mp hb).symm)
  | same ha hb hae hbe =>
    obtain ⟨av, hat, hav⟩ := Option.map_eq_some_iff.mp ha
    obtain ⟨bv, hbt, hbv⟩ := Option.map_eq_some_iff.mp hb
    obtain rfl := h.tails_named hat hbt (hav.trans hbv.symm)
    exact hquiet (hnil hae) (hnil hbe) (hat.trans hbt.symm)
  | left ha hb hae hocc hc =>
    obtain ⟨av, hat, rfl⟩ := Option.map_eq_some_iff.mp ha
    exact h.solved_one hs hm hunb hat (Option.map_eq_none_iff.mp hb) (hnil hae) hocc hc
  | right ha hb hbe hocc hc =>
    obtain ⟨bv, hbt, rfl⟩ := Option.map_eq_some_iff.mp hb
    have hat := Option.map_eq_none_iff.mp ha
    have hcomm : ∀ v, v ∈ b.free_vars ++ a.free_vars → v ∈ a.free_vars ++ b.free_vars := by
      simp [or_comm]
    have hunb' : ∀ v ∈ [bv], ∀ p ∈ sub :: P, p.lookup (nameOf v) = none := fun v hv =>
      hunb v (by simpa [TailStep.binds, hat, hbt] using hv)
    obtain ⟨s', σ', hrun, hsame⟩ := h.flip.solved_one (hs.sub hcomm) hm
      (by simpa [TailStep.binds, hat, hbt] using hunb') hbt hat (hnil hbe) hocc hc
    exact Solved.widen ⟨s', σ', hrun, hsame.symm⟩ hcomm
  | both ha hb hne hav hbv hg hc =>
    obtain ⟨av, hat, rfl⟩ := Option.map_eq_some_iff.mp ha
    obtain ⟨bv, hbt, rfl⟩ := Option.map_eq_some_iff.mp hb
    have hne' : av ≠ bv := fun e => hne (congrArg _ e)
    have hbinds : av ∈ st.binds ∧ bv ∈ st.binds := by simp [TailStep.binds, hat, hbt, hne']
    have hnew : g₁.next ∉ T := fun hT => Nat.lt_irrefl _ ((hs.types _ hT).trans_le
      (Nat.le_of_mul_le_mul_left h.yields.le Nat.two_pos))
    obtain ⟨hge, hlt⟩ := name_bounds g₁.next (.row k)
    have hlt : (Kind.row k).name g₁.next < g₂.double.next := by
      show _ < 2 * g₂.next
      rw [(FreshVarGen.fresh_ok hg).2.1]
      exact hlt
    exact h.solved_by hs hm
      (h.solve_two hat hbt hge (h.uncrossed hst.2) (hm.tails_unbound hunb) hne'
        (fun hv => hav (mem_extra_vars_rename hv)) (fun hv => hbv (mem_extra_vars_rename hv)) hlt
        (kindOf_row_name hnew)) (merged_twoTails hne _ _ fun p hp =>
        ⟨hunb av hbinds.1 p hp, hunb bv hbinds.2 p hp⟩) hc

end Prepared

/-! ## The calls of a run -/

/-- Where the call comes back, and is sound, it makes the two types the same. -/
def SolvesAt (T : List TypeVar)
    (unify : MonoType → MonoType → FreshVarGen → Call (Substitution × FreshVarGen))
    (steps : List Substitution → MonoType → MonoType → FreshVarGen → List RunStep)
    (a b : MonoType) : Prop :=
  ∀ P g s g₁, a.Kinded (kindOf T) → b.Kinded (kindOf T) →
    Scope T (a.free_vars ++ b.free_vars) g →
    unify (a.rename nameOf) (b.rename nameOf) g = .ok (s, g₁) →
    AllSound (steps P (a.rename nameOf) (b.rename nameOf) g) →
    Solved T P (a.free_vars ++ b.free_vars) a b g g₁ s

section

variable {unify : MonoType → MonoType → FreshVarGen → Call (Substitution × FreshVarGen)}
  {steps : List Substitution → MonoType → MonoType → FreshVarGen → List RunStep}

/-- A call on what the run before it left, as its caller meets it. -/
theorem Run.call {ta tb : MonoType} (h₁ : Run T P V g g₁ s₁ s₁' σ₁)
    (hu : SolvesAt T unify steps (a.subst σ₁) (b.subst σ₁)) (hs : Scope T V g)
    (ha : a.Over (kindOf T) V) (hb : b.Over (kindOf T) V)
    (hap : s₁.apply n (a.rename nameOf) = .ok ta) (hbp : s₁.apply n (b.rename nameOf) = .ok tb)
    (h : unify ta tb g₁ = .ok (s₂, g₂)) (hc : s₂.compose n s₁ = .ok s₃)
    (hst : AllSound (steps (s₁ :: P) ta tb g₁)) :
    ∃ s₃' σ₃, Run T P V g g₂ s₃ s₃' σ₃ ∧ Refines (kindOf T) σ₁ σ₃ ∧
      (a.subst σ₃).Same (b.subst σ₃) := by
  obtain rfl := h₁.applied hs ha hap
  obtain rfl := h₁.applied hs hb hbp
  have hs₁ := h₁.scope hs ha hb
  obtain ⟨s₂', σ₂, h₂, hsame⟩ := hu (s₁ :: P) g₁ s₂ g₂ (h₁.yields.subst_known h₁.resolves ha).1
    (h₁.yields.subst_known h₁.resolves hb).1 hs₁ h hst
  obtain ⟨hY, σ₃, hσ₃, href, hsame₃⟩ := h₁.yields.after hs.past h₁.resolves ha hb h₂.yields
    h₂.resolves hsame
  exact ⟨_, σ₃, ⟨(h₂.mirror hs₁).compose (h₁.mirror hs) h₂.resolves hc, hY, hσ₃⟩, href, hsame₃⟩

/-- Two calls, one over what the other left. -/
theorem Solved.call {a₁ b₁ ta tb : MonoType}
    (h₁ : Solved T P (a₁.free_vars ++ b₁.free_vars) a₁ b₁ g g₁ s₁)
    (hu : ∀ σ, SolvesAt T unify steps (a.subst σ) (b.subst σ)) (hs : Scope T V g)
    (ha₁ : a₁.Over (kindOf T) V) (hb₁ : b₁.Over (kindOf T) V)
    (ha : a.Over (kindOf T) V) (hb : b.Over (kindOf T) V)
    (hap : s₁.apply n (a.rename nameOf) = .ok ta) (hbp : s₁.apply n (b.rename nameOf) = .ok tb)
    (h : unify ta tb g₁ = .ok (s₂, g₂)) (hc : s₂.compose n s₁ = .ok s₃)
    (hst : AllSound (steps (s₁ :: P) ta tb g₁)) :
    ∃ s₃' σ₃, Run T P V g g₂ s₃ s₃' σ₃ ∧ (a₁.subst σ₃).Same (b₁.subst σ₃) ∧
      (a.subst σ₃).Same (b.subst σ₃) := by
  obtain ⟨s₁', σ₁, hrun, hsame⟩ :=
    h₁.widen fun v hv => (mem_append.mp hv).elim (ha₁.vars v) (hb₁.vars v)
  obtain ⟨s₃', σ₃, hrun₃, href, hsame₃⟩ := hrun.call (hu σ₁) hs ha hb hap hbp h hc hst
  exact ⟨s₃', σ₃, hrun₃, href a₁ b₁ ha₁.kinded hb₁.kinded hsame, hsame₃⟩

variable (hu : ∀ a b, SolvesAt T unify steps a b)

include hu

theorem Run.shared {L : List (String × MonoType × MonoType)} {out : Substitution}
    (h₁ : Run T P V g g₁ sub s' σ) (hs : Scope T V g)
    (hL : ∀ p ∈ L, p.2.1.Over (kindOf T) V ∧ p.2.2.Over (kindOf T) V)
    (h : unify_shared unify n (renamePairs nameOf L) sub g₁ = .ok (out, g₂))
    (hst : AllSound (shared_steps unify steps P n (renamePairs nameOf L) sub g₁)) :
    ∃ out' σ', Run T P V g g₂ out out' σ' ∧ Refines (kindOf T) σ σ' ∧
      ∀ p ∈ L, (p.2.1.subst σ').Same (p.2.2.subst σ') := by
  induction L generalizing sub s' σ g₁ with
  | nil =>
    cases h
    exact ⟨s', σ, h₁, fun _ _ _ _ h => h, by simp⟩
  | cons p L ih =>
    obtain ⟨f, ta, tb⟩ := p
    obtain ⟨ha, hb⟩ := hL _ (.head _)
    simp only [renamePairs, List.map_cons, unify_shared, call_bind_ok, call_eq_ok] at h
    obtain ⟨ta', hta, tb', htb, ⟨s, g'⟩, hcall, sub₁, hc, hrest⟩ := h
    have hsteps : shared_steps unify steps P n (renamePairs nameOf ((f, ta, tb) :: L)) sub g₁ =
        steps (sub :: P) ta' tb' g₁ ++
          shared_steps unify steps P n (renamePairs nameOf L) sub₁ g' := by
      simp only [renamePairs, List.map_cons, shared_steps, hta, htb, hcall, hc]
    rw [hsteps, AllSound.append] at hst
    obtain ⟨s₂', σ₂, h₂, href, hsame⟩ := h₁.call (hu _ _) hs ha hb hta htb hcall hc hst.1
    obtain ⟨out', σ', hout, href', hall⟩ := ih h₂ (fun q hq => hL q (.tail _ hq)) hrest hst.2
    refine ⟨out', σ', hout, fun x y hx hy hxy => href' x y hx hy (href x y hx hy hxy), ?_⟩
    intro q hq
    rcases mem_cons.mp hq with rfl | hq
    · exact href' _ _ ha.kinded hb.kinded hsame
    · exact hall q hq

variable {a b : RowType} (ha : a.Kinded (kindOf T) k) (hb : b.Kinded (kindOf T) k)
  (hs : Scope T (a.free_vars ++ b.free_vars) g)

include ha hb hs

theorem prepare_tails_run {st : TailStep}
    (h : prepare_tails unify n (a.rename nameOf) (b.rename nameOf) g = .ok (st, g₁))
    (hst : AllSound (shared_steps unify steps P n
      (shared_fields (a.rename nameOf).to_map.1 (b.rename nameOf).to_map.1) .empty g)) :
    ∃ st' σ, Prepared (kindOf T) a b k g.double g₁.double st' σ ∧ st = st'.renamed st.subst ∧
      Merged P st.subst st'.subst := by
  obtain ⟨hsh, hao, hbo, hat, hbt⟩ := prepare_tails_ok h
  simp only [to_map_rename, shared_fields_rename, only_fields_rename] at hsh hao hbo hst
  have hfa : ∀ {f t}, a.get f = some t → t.Over (kindOf T) (a.free_vars ++ b.free_vars) := fun hf =>
    ⟨(kinded_get ha hf).1, fun v hv => mem_append_left _ ((kinded_get ha hf).2 v hv)⟩
  have hfb : ∀ {f t}, b.get f = some t → t.Over (kindOf T) (a.free_vars ++ b.free_vars) := fun hf =>
    ⟨(kinded_get hb hf).1, fun v hv => mem_append_right _ ((kinded_get hb hf).2 v hv)⟩
  obtain ⟨τ, hempty⟩ := run_empty T P (a.free_vars ++ b.free_vars) g
  obtain ⟨sub', σ, hrun, -, hall⟩ := hempty.shared hu hs (fun p hp =>
    ⟨hfa (mem_shared_fields.mp hp).1, hfb (mem_shared_fields.mp hp).2⟩) hsh hst
  refine ⟨⟨sub', _, _, a.tail, b.tail⟩, σ, ⟨hs.past, hrun.yields, hrun.resolves, ha, hb, rfl, rfl,
    rfl, rfl, fun f t u hf hf' => hall (f, t, u) (mem_shared_fields.mpr ⟨hf, hf'⟩)⟩, ?_,
    hrun.merged⟩
  have hae := hrun.extras hs (fun p hp => hfa (mem_only_fields hp)) hao
  have hbe := hrun.extras hs (fun p hp => hfb (mem_only_fields hp)) hbo
  rw [tail_eq_rename] at hat hbt
  obtain ⟨sub, a_only, b_only, a_tail, b_tail⟩ := st
  cases hae
  cases hbe
  cases hat
  cases hbt
  rfl

theorem unify_row_kind_solves
    (h : unify_row_kind unify k n (a.rename nameOf) (b.rename nameOf) g = .ok (s, g₁))
    (hst : AllSound (row_steps unify steps P k n (a.rename nameOf) (b.rename nameOf) g)) :
    Solved T P (a.free_vars ++ b.free_vars) (k.wrap a) (k.wrap b) g g₁ s := by
  simp only [unify_row_kind, call_bind_ok] at h
  obtain ⟨⟨st, g'⟩, hprep, hsolve⟩ := h
  rw [row_steps_eq hprep, AllSound.append] at hst
  obtain ⟨st', σ, hP, hrenamed, hsub⟩ := prepare_tails_run hu ha hb hs hprep hst.1
  have hsound := hst.2 _ (mem_singleton.mpr rfl)
  rw [hrenamed] at hsound hsolve
  exact hP.solve hs hsub hsound hsolve

end

/-! ### All runs -/

theorem MonoType.Same.arrow {a a' b b' : MonoType} (ha : a.Same a') (hb : b.Same b') :
    (Arrow a b).Same (.Arrow a' b') := by
  unfold Same at *
  simp only [MonoType.canon, ha, hb]

theorem MonoType.Same.typed {v v' e e' : RowType} (hv : (Record v).Same (.Record v'))
    (he : (MonoType.EffectRow e).Same (.EffectRow e')) :
    (Typed v e).Same (.Typed v' e') := by
  unfold Same at *
  simp only [MonoType.canon, Record.injEq, MonoType.EffectRow.injEq, Typed.injEq] at *
  exact ⟨hv, he⟩

/-- A variable bound to a type that it is not in. -/
theorem bind_run (hx : kindOf T x = .type) (ht : t.Kinded (kindOf T)) (hocc : x ∉ t.free_vars)
    (hV : x ∈ V) (htV : ∀ u ∈ t.free_vars, u ∈ V) (hP : ∀ p ∈ P, p.lookup (nameOf x) = none) :
    ∃ σ, Run T P V g g (.singleton (nameOf x) (t.rename nameOf)) (.singleton x t) σ ∧
      σ x = t.subst σ := by
  have hlook : ∀ {w u}, (Substitution.singleton x t).lookup w = some u → w = x ∧ u = t :=
    lookup_singleton_some
  have hfree : ∀ u ∈ t.free_vars, (Substitution.singleton x t).lookup u = none := by
    intro u hu
    rw [lookup_singleton, if_neg]
    rintro rfl
    exact hocc hu
  have hset : (Substitution.singleton x t).Settled (kindOf T) := by
    refine ⟨?_, ⟨_, singleton_ranked hocc⟩, ?_⟩
    · intro w u hw
      obtain ⟨rfl, rfl⟩ := hlook hw
      rw [hx]
      exact ht
    · intro w u y _ hw hy
      obtain ⟨rfl, rfl⟩ := hlook hw
      exact hfree y hy
  obtain ⟨σ, hσ⟩ := hset.exists_resolves
  have hbound : (Substitution.singleton x t).lookup x = some t := by
    rw [lookup_singleton, if_pos rfl]
  refine ⟨σ, ⟨merged_singleton hP, ⟨hset, le_refl _, ?_, ?_⟩, hσ⟩, ?_⟩
  · intro w u hw
    rw [(hlook hw).1]
    exact .inl hV
  · intro w u y hw hy
    rw [(hlook hw).2] at hy
    exact .inl (htV y hy)
  · rw [hσ.type_bound x t hbound hx]
    exact (t.subst_self ht fun u hu => hσ.unbound u (hfree u hu)).symm

theorem row_solves (ih : ∀ a b, SolvesAt T (unify_with_fresh n) (run_steps n) a b) (k : RowKind)
    (a b : RowType) :
    SolvesAt T (unify_with_fresh (n + 1)) (run_steps (n + 1)) (k.wrap a) (k.wrap b) := by
  intro P g s g₁ ha hb hs h hst
  simp only [RowKind.wrap_rename, RowKind.free_vars_wrap] at hs h hst ⊢
  have hrow : unify_row_kind (unify_with_fresh n) k n (a.rename nameOf) (b.rename nameOf) g =
      .ok (s, g₁) := by
    cases k <;> exact h
  rw [run_steps_row] at hst
  exact unify_row_kind_solves ih (RowKind.kinded_wrap.mp ha).2 (RowKind.kinded_wrap.mp hb).2 hs
    hrow hst

theorem apply_effect {r r' : RowType} :
    s.apply n (.EffectRow r) = .ok (.EffectRow r') ↔ s.apply_effect_row n r = .ok r' := by
  unfold Substitution.apply Substitution.apply_effect_row MonoType.walk
  rcases r.walk s (s.apply_rows n) .effect with e | r'' <;> simp [pure, Except.pure]

/-! ### Types, and what they come from -/

section

variable {ρ : TypeVar → TypeVar}

theorem rename_eq_var (h : t.rename ρ = .Var v) : ∃ x, t = .Var x ∧ ρ x = v := by
  cases t <;> cases h
  exact ⟨_, rfl, rfl⟩

theorem rename_eq_con {x : String} (h : t.rename ρ = .Con x) : t = .Con x := by
  cases t <;> cases h
  rfl

theorem rename_eq_arrow (h : t.rename ρ = .Arrow a b) :
    ∃ a' b', t = .Arrow a' b' ∧ a'.rename ρ = a ∧ b'.rename ρ = b := by
  cases t <;> cases h
  exact ⟨_, _, rfl, rfl, rfl⟩

theorem rename_eq_wrap {r : RowType} (h : t.rename ρ = k.wrap r) :
    ∃ r', t = k.wrap r' ∧ r'.rename ρ = r := by
  cases k <;> cases t <;> cases h <;> exact ⟨_, rfl, rfl⟩

theorem rename_eq_typed {r e : RowType} (h : t.rename ρ = .Typed r e) :
    ∃ r' e', t = .Typed r' e' ∧ r'.rename ρ = r ∧ e'.rename ρ = e := by
  cases t <;> cases h
  exact ⟨_, _, rfl, rfl, rfl⟩

end

/-- Every run of the unifier: the induction over its calls. -/
theorem unify_with_fresh_solves (n : Nat) (T : List TypeVar) (a b : MonoType) :
    SolvesAt T (unify_with_fresh n) (run_steps n) a b := by
  induction n generalizing a b with
  | zero =>
    intro P g s g₁ _ _ _ h
    cases h
  | succ n ih =>
    intro P g s g₁ ha hb hs h hst
    generalize hA : a.rename nameOf = A at h hst
    generalize hB : b.rename nameOf = B at h hst
    cases unify_step h with
    | same v =>
      obtain ⟨x, rfl, hx⟩ := rename_eq_var hA
      obtain ⟨y, rfl, hy⟩ := rename_eq_var hB
      obtain rfl := eq_of_kind (hx.trans hy.symm) (Eq.trans (b := Kind.type) ha (Eq.symm hb))
      obtain ⟨σ, hσ⟩ := run_empty T P ((Var x).free_vars ++ (Var x).free_vars) g
      exact ⟨.empty, σ, hσ, rfl⟩
    | con x =>
      obtain rfl := rename_eq_con hA
      obtain rfl := rename_eq_con hB
      obtain ⟨σ, hσ⟩ := run_empty T P ((MonoType.Con x).free_vars ++ (MonoType.Con x).free_vars) g
      exact ⟨.empty, σ, hσ, rfl⟩
    | left v _ _ hocc =>
      obtain ⟨x, rfl, rfl⟩ := rename_eq_var hA
      subst hB
      rw [run_steps_left hocc] at hst
      have hP := hst _ (mem_singleton.mpr rfl)
      obtain ⟨σ, hrun, hx⟩ := bind_run (g := g) ha hb
        (fun hx => hocc (b.free_vars_rename ▸ List.mem_map_of_mem hx))
        (V := (Var x).free_vars ++ b.free_vars) (.head _) (fun u hu => mem_append_right _ hu)
        fun p hp => hP p hp _ (mem_singleton.mpr rfl)
      exact ⟨_, σ, hrun, congrArg MonoType.canon hx⟩
    | right v _ _ hno hocc =>
      obtain ⟨x, rfl, rfl⟩ := rename_eq_var hB
      subst hA
      rw [run_steps_right hno] at hst
      have hP := hst _ (mem_singleton.mpr rfl)
      obtain ⟨σ, hrun, hx⟩ := bind_run (g := g) hb ha
        (fun hx => hocc (a.free_vars_rename ▸ List.mem_map_of_mem hx))
        (V := a.free_vars ++ (Var x).free_vars) (mem_append_right _ (.head _))
        (fun u hu => mem_append_left _ hu) fun p hp => hP p hp _ (mem_singleton.mpr rfl)
      exact ⟨_, σ, hrun, congrArg MonoType.canon hx.symm⟩
    | arrow h₁ hap hbp h₂ hc =>
      obtain ⟨a₁, a₂, rfl, rfl, rfl⟩ := rename_eq_arrow hA
      obtain ⟨b₁, b₂, rfl, rfl, rfl⟩ := rename_eq_arrow hB
      rw [run_steps_arrow h₁ hap hbp, AllSound.append] at hst
      have hrun := ih a₁ b₁ P g _ _ ha.1 hb.1
        (hs.sub fun v hv => by simp [MonoType.free_vars] at hv ⊢; tauto) h₁ hst.1
      obtain ⟨s', σ, hrun, hsame₁, hsame₂⟩ := hrun.call (fun σ => ih _ _) hs
        ⟨ha.1, fun v hv => by simp [MonoType.free_vars, hv]⟩
        ⟨hb.1, fun v hv => by simp [MonoType.free_vars, hv]⟩
        ⟨ha.2, fun v hv => by simp [MonoType.free_vars, hv]⟩
        ⟨hb.2, fun v hv => by simp [MonoType.free_vars, hv]⟩ hap hbp h₂ hc hst.2
      exact ⟨s', σ, hrun, Same.arrow hsame₁ hsame₂⟩
    | @row k ra rb _ _ _ hrow =>
      obtain ⟨a, rfl, rfl⟩ := rename_eq_wrap hA
      obtain ⟨b, rfl, rfl⟩ := rename_eq_wrap hB
      rw [← RowKind.wrap_rename, ← RowKind.wrap_rename] at h hst
      exact row_solves ih k a b P g s g₁ ha hb hs h hst
    | typed hv hap hbp he hc =>
      obtain ⟨va, ea, rfl, rfl, rfl⟩ := rename_eq_typed hA
      obtain ⟨vb, eb, rfl, rfl, rfl⟩ := rename_eq_typed hB
      rw [run_steps_typed hv hap hbp, AllSound.append] at hst
      have hrun : Solved T P ((Record va).free_vars ++ (Record vb).free_vars) (.Record va)
          (.Record vb) g _ _ := unify_row_kind_solves ih ha.1 hb.1
        (hs.sub fun v hv => by simp [MonoType.free_vars] at hv ⊢; tauto) hv hst.1
      -- the effect rows are unified as types are
      have heffect : ∀ σ, SolvesAt T (unify_with_fresh (n + 1)) (run_steps (n + 1))
          ((MonoType.EffectRow ea).subst σ) ((MonoType.EffectRow eb).subst σ) := fun σ =>
        row_solves ih .effect _ _
      obtain ⟨s', σ, hrun, hsame₁, hsame₂⟩ := hrun.call heffect hs
        ⟨ha.1, fun v hv => mem_append_left _ (mem_append_left _ hv)⟩
        ⟨hb.1, fun v hv => mem_append_right _ (mem_append_left _ hv)⟩
        ⟨ha.2, fun v hv => mem_append_left _ (mem_append_right _ hv)⟩
        ⟨hb.2, fun v hv => mem_append_right _ (mem_append_right _ hv)⟩
        (apply_effect.mpr hap) (apply_effect.mpr hbp) he hc hst.2
      exact ⟨s', σ, hrun, Same.typed hsame₁ hsame₂⟩

/-! ## The names of two types -/

mutual

/-- How each variable of the type is used. -/
def MonoType.uses : MonoType → List (TypeVar × Kind)
  | .Var v => [(v, .type)]
  | .Con _ => []
  | .Arrow a b => a.uses ++ b.uses
  | .Record row => row.uses .record
  | .EffectRow row => row.uses .effect
  | .Typed v e => v.uses .record ++ e.uses .effect

def RowType.uses (k : RowKind) : RowType → List (TypeVar × Kind)
  | .Empty => []
  | .RowVar v => [(v, .row k)]
  | .Extend _ ty rest => ty.uses ++ rest.uses k

end

/-- No variable of the two types is used both as a type and as a row tail. -/
def TypesNotTails (a b : MonoType) : Prop :=
  ∀ v k, (v, .type) ∈ a.uses ++ b.uses → (v, .row k) ∉ a.uses ++ b.uses

theorem InOrder.of_rename {ρ : TypeVar → TypeVar} {r : RowType} (h : (r.rename ρ).InOrder) :
    r.InOrder := by
  match r with
  | .Empty => trivial
  | .RowVar _ => trivial
  | .Extend f ty rest =>
    refine ⟨fun g t hg => h.1 g (t.rename ρ) ?_, of_rename h.2⟩
    rw [get_rename, hg]
    rfl

mutual

/-- The type with the uses of its variables told apart. -/
theorem MonoType.exists_names (t : MonoType) (ho : t.Ordered)
    (h : ∀ p ∈ t.uses, kindOf T (p.2.name p.1) = p.2) : ∃ t' : MonoType, t'.rename nameOf = t ∧
      t'.Kinded (kindOf T) ∧ t'.free_vars = t.uses.map fun p => p.2.name p.1 := by
  match t with
  | .Var v =>
    exact ⟨.Var (Kind.type.name v), congrArg Var (nameOf_name v .type), h (v, .type) (.head _), rfl⟩
  | .Con c => exact ⟨.Con c, rfl, trivial, rfl⟩
  | .Arrow a b =>
    obtain ⟨a', ha, hka, hva⟩ := a.exists_names ho.1 fun p hp => h p (mem_append_left _ hp)
    obtain ⟨b', hb, hkb, hvb⟩ := b.exists_names ho.2 fun p hp => h p (mem_append_right _ hp)
    refine ⟨.Arrow a' b', congrArg₂ Arrow ha hb, ⟨hka, hkb⟩, ?_⟩
    rw [MonoType.free_vars, MonoType.uses, List.map_append, hva, hvb]
  | .Record row =>
    obtain ⟨r, hr, hk, hv⟩ := row.exists_names .record ho h
    exact ⟨.Record r, congrArg Record hr, hk, hv⟩
  | .EffectRow row =>
    obtain ⟨r, hr, hk, hv⟩ := row.exists_names .effect ho.2 h
    exact ⟨.EffectRow r, congrArg MonoType.EffectRow hr, ⟨InOrder.of_rename (hr ▸ ho.1), hk⟩, hv⟩
  | .Typed x e =>
    obtain ⟨x', hx, hkx, hvx⟩ := x.exists_names .record ho.1 fun p hp => h p (mem_append_left _ hp)
    obtain ⟨e', he, hke, hve⟩ := e.exists_names .effect ho.2.2 fun p hp =>
      h p (mem_append_right _ hp)
    refine ⟨.Typed x' e', congrArg₂ Typed hx he, ⟨hkx, InOrder.of_rename (he ▸ ho.2.1), hke⟩, ?_⟩
    rw [MonoType.free_vars, MonoType.uses, List.map_append, hvx, hve]

theorem RowType.exists_names (r : RowType) (k : RowKind) (ho : r.Ordered)
    (h : ∀ p ∈ r.uses k, kindOf T (p.2.name p.1) = p.2) : ∃ r' : RowType, r'.rename nameOf = r ∧
      r'.Kinded (kindOf T) k ∧ r'.free_vars = (r.uses k).map fun p => p.2.name p.1 := by
  match r with
  | .Empty => exact ⟨.Empty, rfl, trivial, rfl⟩
  | .RowVar v =>
    exact ⟨.RowVar ((Kind.row k).name v), congrArg RowVar (nameOf_name v (.row k)),
      h (v, .row k) (.head _), rfl⟩
  | .Extend f ty rest =>
    obtain ⟨t, ht, hkt, hvt⟩ := ty.exists_names ho.1 fun p hp => h p (mem_append_left _ hp)
    obtain ⟨r, hr, hkr, hvr⟩ := rest.exists_names k ho.2 fun p hp => h p (mem_append_right _ hp)
    refine ⟨.Extend f t r, congrArg₂ (Extend f) ht hr, ⟨hkt, hkr⟩, ?_⟩
    rw [RowType.free_vars, RowType.uses, List.map_append, hvt, hvr]

end

/-- A run in which no step binds a variable again, or ties two tails to each other,
makes the two types the same. -/
theorem unified_types_same (h : unify_with_fresh n a b g = .ok (s, g₁))
    (hpast : ∀ v ∈ a.free_vars ++ b.free_vars, v < g.next) (ha : a.Ordered) (hb : b.Ordered)
    (htt : TypesNotTails a b) (hsteps : ∀ st ∈ run_steps n [] a b g, st.Sound) :
    ∃ N ta tb, (∀ m ≥ N, s.apply m a = .ok ta ∧ s.apply m b = .ok tb) ∧ ta.Same tb := by
  -- the variables that stand for types
  let T : List TypeVar := ((a.uses ++ b.uses).filter (·.2 = .type)).map Prod.fst
  have hT : ∀ v, v ∈ T ↔ (v, .type) ∈ a.uses ++ b.uses := by
    intro v
    simp [T]
  have hkind : ∀ p ∈ a.uses ++ b.uses, kindOf T (p.2.name p.1) = p.2 := by
    rintro ⟨v, j⟩ hp
    rcases j with _ | k
    · exact (if_neg (by simp [Kind.name])).trans (if_pos (by rwa [nameOf_name, hT]))
    · exact kindOf_row_name fun hv => htt v k ((hT v).mp hv) hp
  obtain ⟨a', ha', hka, hva⟩ := a.exists_names ha fun p hp => hkind p (mem_append_left _ hp)
  obtain ⟨b', hb', hkb, hvb⟩ := b.exists_names hb fun p hp => hkind p (mem_append_right _ hp)
  have hlt : ∀ p ∈ a.uses ++ b.uses, p.1 < g.next := by
    intro p hp
    have hname : p.2.name p.1 ∈ a'.free_vars ++ b'.free_vars := by
      rw [hva, hvb, ← List.map_append]
      exact List.mem_map_of_mem hp
    refine hpast p.1 ?_
    rw [← ha', ← hb', a'.free_vars_rename, b'.free_vars_rename, ← List.map_append]
    exact nameOf_name p.1 p.2 ▸ List.mem_map_of_mem hname
  have hs : Scope T (a'.free_vars ++ b'.free_vars) g := by
    have hnames : ∀ x ∈ a'.free_vars ++ b'.free_vars, ∃ p ∈ a.uses ++ b.uses, p.2.name p.1 = x := by
      intro x hx
      rw [hva, hvb, ← List.map_append] at hx
      exact List.mem_map.mp hx
    refine ⟨fun v hv => hlt _ ((hT v).mp hv), ?_, ?_⟩
    · intro x hx hodd hv
      obtain ⟨⟨v, j⟩, hp, rfl⟩ := hnames x hx
      have heffect := kindOf_effect (T := T).mpr hodd
      rw [hkind _ hp] at heffect
      cases heffect
      rw [nameOf_name] at hv
      exact htt v .effect ((hT v).mp hv) hp
    · intro x hx
      obtain ⟨p, hp, rfl⟩ := hnames x hx
      exact (name_bounds p.1 p.2).2.trans_le (Nat.mul_le_mul_left 2 (hlt p hp))
  rw [← ha', ← hb'] at h hsteps ⊢
  obtain ⟨s', σ, hrun, hsame⟩ := unify_with_fresh_solves n T a' b' [] g s g₁ hka hkb hs h hsteps
  obtain ⟨M, hM⟩ := hrun.yields.settled.apply_ends hrun.resolves
  have hmir := hrun.mirror hs
  have hback : ∀ m ≥ M, ∀ t : MonoType, t.Kinded (kindOf T) → (∀ x ∈ t.free_vars, Live T x) →
      s.apply m (t.rename nameOf) = .ok ((t.subst σ).rename nameOf) := by
    intro m hm t ht hl
    rw [hmir.apply_eq m ht hl, hM m hm t ht]
    rfl
  exact ⟨M, _, _, fun m hm => ⟨hback m hm a' hka fun x hx => hs.live x (mem_append_left _ hx),
    hback m hm b' hkb fun x hx => hs.live x (mem_append_right _ hx)⟩, hsame.rename nameOf⟩

/-! ### A run that goes wrong, and one that does not -/

/-- `{x: {| 0} | 0}` against `{x: {y: Int} | 1}`: the shared field binds the tail of
its own row. -/
def reboundLeft : MonoType := .Record (.Extend "x" (.Record (.RowVar 0)) (.RowVar 0))

def reboundRight : MonoType :=
  .Record (.Extend "x" (.Record (.Extend "y" (.Con "Int") .Empty)) (.RowVar 1))

def rebound : Substitution := ⟨[(1, .Record (.RowVar 2)), (0, .Record (.RowVar 2))]⟩

/-- The tail step drops what the shared field asked of the tail. -/
theorem rebound_tail_differs :
    unify_with_fresh 3 reboundLeft reboundRight { next := 2 } = .ok (rebound, { next := 3 }) ∧
    (∀ v ∈ reboundLeft.free_vars ++ reboundRight.free_vars, v < 2) ∧
    TypesNotTails reboundLeft reboundRight ∧
    ∃ ta tb, (∀ m, rebound.apply (m + 1) reboundLeft = .ok ta ∧
      rebound.apply (m + 1) reboundRight = .ok tb) ∧ ¬ ta.Same tb := by
  refine ⟨rfl, by decide, ?_, .Record (.Extend "x" (.Record (.RowVar 2)) (.RowVar 2)),
    .Record (.Extend "x" (.Record (.Extend "y" (.Con "Int") .Empty)) (.RowVar 2)),
    fun m => ⟨rfl, rfl⟩, by decide⟩
  intro v k h
  simp [reboundLeft, reboundRight, MonoType.uses, RowType.uses] at h

theorem open_sound : ∀ st ∈ run_steps 3 [] openLeft openRight { next := 3 }, st.Sound := by
  intro st hst
  have hunb := open_unbound st hst
  rw [run_steps_open] at hst
  simp only [mem_cons, List.not_mem_nil, or_false] at hst
  rcases hst with rfl | rfl
  · exact hunb
  · refine ⟨hunb, ?_⟩
    rintro ⟨av, bv, -, -, -, -, p, hp, -⟩
    cases hp

theorem open_roles : TypesNotTails openLeft openRight := by
  intro v k h h'
  simp only [openLeft, openRight, MonoType.uses, RowType.uses, List.cons_append, List.nil_append,
    mem_cons, Prod.mk.injEq, reduceCtorEq, and_false, and_true, List.not_mem_nil, or_false] at h h'
  subst h
  simp at h'

theorem open_rows_same : ∃ N ta tb, (∀ m ≥ N, opened.apply m openLeft = .ok ta ∧
    opened.apply m openRight = .ok tb) ∧ ta.Same tb :=
  @unified_types_same 3 { next := 3 } { next := 4 } opened openLeft openRight rfl (by decide)
    (by simp [openLeft, MonoType.Ordered, RowType.Ordered])
    (by simp [openRight, MonoType.Ordered, RowType.Ordered]) open_roles open_sound

end paideia_as_shell_hm
