-- Whether the bindings of a run have an end, whatever roles the variables play.
-- The occurs checks of the unifier look at a type as it stands and never follow a
-- binding. The bindings have an end when no step has a way back that the checks
-- miss: through what the run has bound before, or from one tail to the other.
import PaideiaAs.ShellHm.Tails

open Assoc

namespace paideia_as_shell_hm

open RowType Substitution
open Outcome (bind_eq_ok)
open List (mem_append mem_append_left mem_append_right mem_cons mem_singleton)
open MonoType (Arrow Record Typed Var)
open Relation (TransGen ReflTransGen)

variable {s s₁ s₂ s₃ : Substitution} {n : Nat} {g g' g₁ g₂ : FreshVarGen} {V W : List TypeVar}
  {P : List Substitution} {before after : List RunStep} {st : RunStep}

/-! ## Steps -/

/-- One of the substitutions leads from `v` to `u`. -/
def Found (P : List Substitution) (v u : TypeVar) : Prop := ∃ p ∈ P, p.Leads v u

/-- The occurs check that follows what is bound: a way from one of the variables to `v`. -/
def Behind (P : List Substitution) (v : TypeVar) (us : List TypeVar) : Prop :=
  ∃ u ∈ us, ReflTransGen (Found P) u v

/-- No tail is behind the extras that it gets, and the two are not each behind the
extras that the other gets. -/
structure TailStep.Checked (P : List Substitution) (st : TailStep) : Prop where
  left : ∀ av, st.a_tail = some av → ¬ Behind P av (extra_vars st.b_only)
  right : ∀ bv, st.b_tail = some bv → ¬ Behind P bv (extra_vars st.a_only)
  both : ∀ av bv, st.a_tail = some av → st.b_tail = some bv → av ≠ bv →
    ¬ (Behind P bv (extra_vars st.b_only) ∧ Behind P av (extra_vars st.a_only))

namespace RunStep

/-- The substitutions found before the step. -/
def earlier : RunStep → List Substitution
  | .bind before _ _ => before
  | .tails before _ st => st.subst :: before

def binds : RunStep → List TypeVar
  | .bind _ v _ => [v]
  | .tails _ _ st => st.binds

/-- The step closes no cycle of bindings. -/
def Checked : RunStep → Prop
  | .bind before v t => ¬ Behind before v t.free_vars
  | .tails before _ st => st.Checked (st.subst :: before)

/-- Nothing bound before is bound again. -/
def Unbound (st : RunStep) : Prop := ∀ p ∈ st.earlier, ∀ v ∈ st.binds, p.lookup v = none

def Uncrossed : RunStep → Prop
  | .bind _ _ _ => True
  | .tails _ _ st => st.Uncrossed

end RunStep

/-! ## Cycles -/

section

variable {α : Type} {R : α → α → Prop} {A : α → Prop} {v x y : α}

/-- A way over `R` and new edges out of `v` takes a new edge once at most, where none of
them has a way back. -/
theorem way_of_added (hA : ∀ u, A u → ¬ ReflTransGen R u v)
    (h : ReflTransGen (fun x y => R x y ∨ x = v ∧ A y) x y) :
    ReflTransGen R x y ∨ ReflTransGen R x v ∧ ∃ u, A u ∧ ReflTransGen R u y := by
  induction h with
  | refl => exact .inl .refl
  | tail _ hbc ih =>
    obtain hR | ⟨rfl, hu⟩ := hbc
    · exact ih.imp (·.tail hR) fun ⟨hv, u, hu, hub⟩ => ⟨hv, u, hu, hub.tail hR⟩
    · obtain hxb | ⟨-, u, hAu, hub⟩ := ih
      · exact .inr ⟨hxb, _, hu, .refl⟩
      · exact absurd hub (hA u hAu)

theorem no_cycle_of_added (hR : ∀ x, ¬ TransGen R x x) (hA : ∀ u, A u → ¬ ReflTransGen R u v)
    (x : α) : ¬ TransGen (fun x y => R x y ∨ x = v ∧ A y) x x := by
  intro h
  obtain ⟨y, hxy, hyx⟩ := TransGen.head'_iff.mp h
  have hway := way_of_added hA hyx
  obtain hxy | ⟨rfl, hy⟩ := hxy
  · obtain hyx | ⟨hyv, u, hu, hux⟩ := hway
    · exact hR x (.head' hxy hyx)
    · exact hA u hu ((hux.tail hxy).trans hyv)
  · exact hway.elim (hA y hy) fun h => hA y hy h.1

end

def NoCycle (P : List Substitution) : Prop := ∀ v, ¬ TransGen (Found P) v v

theorem found_cons {v u : TypeVar} : Found (s :: P) v u ↔ s.Leads v u ∨ Found P v u := by
  simp [Found]

theorem NoCycle.of_added {A : TypeVar → Prop} {v : TypeVar} (hP : NoCycle P)
    (hA : ∀ u, A u → ¬ ReflTransGen (Found P) u v)
    (hs : ∀ x y, s.Leads x y → x = v ∧ A y) : NoCycle (s :: P) := by
  refine fun x hx => no_cycle_of_added hP hA x (TransGen.mono ?_ x x hx)
  exact fun y z hyz => (found_cons.mp hyz).symm.imp_right (hs y z)

/-- What is bound has a rank: how many bound variables it leads to. -/
theorem Substitution.Acyclic.exists_ranked (h : s.Acyclic) : ∃ rank, s.Ranked rank := by
  classical
  refine ⟨fun v => ((keys s.entries).toFinset.filter fun u => TransGen s.Leads v u).card, ?_⟩
  intro v t u hv hu hb
  have hvu : s.Leads v u := ⟨t, hv, hu⟩
  refine Finset.card_lt_card ((Finset.ssubset_iff_of_subset ?_).mpr ⟨u, ?_, ?_⟩)
  · intro w hw
    rw [Finset.mem_filter] at hw ⊢
    exact ⟨hw.1, .head hvu hw.2⟩
  · rw [Finset.mem_filter, List.mem_toFinset, ← lookup_isSome]
    exact ⟨hb, .single hvu⟩
  · exact fun hm => h u (Finset.mem_filter.mp hm).2

/-! ## What `apply` leaves -/

theorem Behind.of_mem {us : List TypeVar} {v : TypeVar} (h : v ∈ us) : Behind P v us := ⟨v, h, .refl⟩

theorem Behind.mono {us ws : List TypeVar} {v : TypeVar} (h : Behind P v us)
    (hsub : ∀ u ∈ us, u ∈ ws) : Behind P v ws := by
  obtain ⟨u, hu, huv⟩ := h
  exact ⟨u, hsub u hu, huv⟩

theorem RowKind.splice_vars {k : RowKind} {v u : TypeVar} {t : MonoType}
    (h : u ∈ (k.splice v t).free_vars) : u = v ∨ u ∈ t.free_vars := by
  cases k <;> cases t <;>
    simp_all [RowKind.splice, MonoType.free_vars, RowType.free_vars]

theorem behind_bound {v u : TypeVar} {t : MonoType} (hv : s.lookup v = some t)
    (hu : Behind [s] u t.free_vars) : Behind [s] u [v] := by
  obtain ⟨w, hw, hwu⟩ := hu
  exact ⟨v, mem_singleton.mpr rfl, .head ⟨s, mem_singleton.mpr rfl, t, hv, hw⟩ hwu⟩

/-- A variable of the result is behind one of the type. -/
theorem walk_reaches {again : RowKind → RowType → Outcome RowType}
    (hagain : ∀ k r r', again k r = .ok r' → ∀ u ∈ r'.free_vars, Behind [s] u r.free_vars) :
    WalkRule s again (fun t t' => ∀ u ∈ t'.free_vars, Behind [s] u t.free_vars)
      (fun _ r r' => ∀ u ∈ r'.free_vars, Behind [s] u r.free_vars) where
  var v u hu := by
    rcases hv : s.lookup v with _ | x
    · exact .of_mem (by simpa [hv] using hu)
    · exact behind_bound hv (.of_mem (by simpa [hv] using hu))
  con _ _ hu := .of_mem hu
  arrow ha hb u hu := by
    rcases mem_append.mp hu with hu | hu
    · exact (ha u hu).mono fun w hw => mem_append_left _ hw
    · exact (hb u hu).mono fun w hw => mem_append_right _ hw
  record hr := hr
  effect hr := hr
  typed hx he u hu := by
    rcases mem_append.mp hu with hu | hu
    · exact (hx u hu).mono fun w hw => mem_append_left _ hw
    · exact (he u hu).mono fun w hw => mem_append_right _ hw
  empty _ _ hu := .of_mem hu
  bound hb hr u hu := by
    refine behind_bound hb ?_
    rw [RowKind.free_vars_wrap]
    exact hagain _ _ _ hr u hu
  other := by
    intro k v _ u hu
    rcases hv : s.lookup v with _ | x
    · rw [hv] at hu
      refine .of_mem (mem_singleton.mpr ?_)
      simpa [MonoType.free_vars] using RowKind.splice_vars hu
    · rw [hv] at hu
      obtain rfl | hu := RowKind.splice_vars hu
      · exact .of_mem (mem_singleton.mpr rfl)
      · exact behind_bound hv (.of_mem hu)
  extend hty hrest u hu := by
    rcases RowType.free_vars_cons hu with hu | hu
    · exact (hty u hu).mono fun w hw => mem_append_left _ hw
    · exact (hrest u hu).mono fun w hw => mem_append_right _ hw

namespace Substitution

theorem apply_rows_reach (n : Nat) (k : RowKind) (r r' : RowType)
    (h : s.apply_rows n k r = .ok r') : ∀ u ∈ r'.free_vars, Behind [s] u r.free_vars := by
  induction n generalizing k r r' with
  | zero => cases h
  | succ n ih => exact (walk_reaches ih).row r k h

theorem apply_reach {t t' : MonoType} (h : s.apply n t = .ok t') :
    ∀ u ∈ t'.free_vars, Behind [s] u t.free_vars := (walk_reaches (apply_rows_reach n)).type t h

theorem apply_effect_row_reach {r r' : RowType} (h : s.apply_effect_row n r = .ok r') :
    ∀ u ∈ r'.free_vars, Behind [s] u r.free_vars :=
  (walk_reaches (apply_rows_reach n)).row r .effect h

theorem way_found {v u : TypeVar} (h : ReflTransGen (Found [s]) v u) :
    ReflTransGen s.Leads v u := by
  refine ReflTransGen.mono ?_ v u h
  intro x y hxy
  simpa [Found] using hxy

/-- What the composition leads to, the two lead to as well. -/
theorem found_compose (hc : s₂.compose n s₁ = .ok s₃) {v u : TypeVar} (h : s₃.Leads v u) :
    TransGen (Found (s₂ :: s₁ :: P)) v u := by
  obtain ⟨t, hv, hu⟩ := h
  rcases lookup_compose_some hc hv with h2 | ⟨t₁, -, h1, ha⟩
  · exact .single ⟨s₂, .head _, t, h2, hu⟩
  · obtain ⟨w, hw, hwu⟩ := apply_reach ha u hu
    refine TransGen.head' ⟨s₁, .tail _ (.head _), t₁, h1, hw⟩ (ReflTransGen.mono ?_ w u hwu)
    rintro x y ⟨p, hp, hxy⟩
    exact ⟨p, mem_singleton.mp hp ▸ .head _, hxy⟩

end Substitution

theorem NoCycle.compose (h : NoCycle (s₂ :: s₁ :: P)) (hc : s₂.compose n s₁ = .ok s₃) :
    NoCycle (s₃ :: P) := by
  refine fun v hv => h v (TransGen.closed ?_ v v hv)
  intro x y hxy
  rcases found_cons.mp hxy with hxy | ⟨p, hp, hxy⟩
  · exact found_compose hc hxy
  · exact .single ⟨p, .tail _ (.tail _ hp), hxy⟩

/-! ## Rows under `apply` -/

namespace RowType

variable {f : String} {t : MonoType} {u : TypeVar}

theorem get_ordered {r : RowType} (ho : r.Ordered) (h : r.get f = some t) : t.Ordered := by
  match r with
  | .Empty => cases h
  | .RowVar _ => cases h
  | .Extend g x rest =>
    simp only [get] at h
    split at h
    · cases h
      exact ho.1
    · exact get_ordered ho.2 h

/-- A variable of a row in order stands in a field or is the tail. -/
theorem InOrder.mem_free_vars {r : RowType} (h : r.InOrder) (hu : u ∈ r.free_vars) :
    (∃ f t, r.get f = some t ∧ u ∈ t.free_vars) ∨ r.tail = some u := by
  match r with
  | .Empty => cases hu
  | .RowVar v =>
    rw [List.mem_singleton.mp hu]
    exact .inr rfl
  | .Extend f x rest =>
    rcases mem_append.mp hu with hu | hu
    · exact .inl ⟨f, x, if_pos rfl, hu⟩
    · obtain ⟨g, t, hg, hut⟩ | ht := InOrder.mem_free_vars h.2 hu
      · exact .inl ⟨g, t, (if_neg (ne_of_gt (h.1 g t hg))).trans hg, hut⟩
      · exact .inr ht

theorem ordered_put {x : MonoType} {r : RowType} (hx : x.Ordered) (ho : r.Ordered) (f : String) :
    (put f x r).Ordered := by
  match r with
  | .Empty => exact ⟨hx, trivial⟩
  | .RowVar _ => exact ⟨hx, trivial⟩
  | .Extend g y rest =>
    rw [put]
    split
    · exact ⟨hx, ho⟩
    · split
      · exact ⟨hx, ho.2⟩
      · exact ⟨ho.1, ordered_put hx ho.2 f⟩

theorem ordered_from_map {fields : Fields} (h : ∀ p ∈ fields, p.2.Ordered) (o : Option TypeVar) :
    (from_map fields o).Ordered := by
  have hall : ∀ l : Fields, (∀ p ∈ l, p.2.Ordered) →
      (l.foldr (fun p acc => RowType.Extend p.1 p.2 acc) (ended o)).Ordered := by
    intro l hl
    induction l with
    | nil => cases o <;> trivial
    | cons p l ih => exact ⟨hl p (.head _), ih fun q hq => hl q (.tail _ hq)⟩
  exact hall _ fun p hp => h p ((List.perm_insertionSort _ fields).mem_iff.mp hp)

end RowType

theorem ordered_wrap {k : RowKind} {r : RowType} :
    (k.wrap r).Ordered ↔ k.Shaped r ∧ r.Ordered := by
  cases k <;> simp [MonoType.Ordered, RowKind.Shaped]

theorem RowKind.splice_ordered {k : RowKind} {t : MonoType} (ho : t.Ordered) (v : TypeVar) :
    (k.splice v t).Ordered ∧ k.Shaped (k.splice v t) := by
  cases k <;> cases t <;> simp_all [RowKind.splice, RowKind.Shaped, MonoType.Ordered,
    RowType.Ordered, InOrder]

section

variable {again : RowKind → RowType → Outcome RowType}

theorem walk_orders (hs : ∀ v t, s.lookup v = some t → t.Ordered)
    (hagain : ∀ k r r', again k r = .ok r' → r.Ordered → k.Shaped r → r'.Ordered ∧ k.Shaped r') :
    WalkRule s again (fun t t' => t.Ordered → t'.Ordered)
      (fun k r r' => r.Ordered → k.Shaped r → r'.Ordered ∧ k.Shaped r') where
  var v _ := by
    rcases hv : s.lookup v with _ | x
    · trivial
    · exact hs v x hv
  con _ _ := trivial
  arrow ha hb ho := ⟨ha ho.1, hb ho.2⟩
  record hr ho := (hr ho (by simp [RowKind.Shaped])).1
  effect hr ho := by
    obtain ⟨hrow, hshape⟩ := hr ho.2 fun _ => ho.1
    exact ⟨hshape rfl, hrow⟩
  typed hx he ho := by
    obtain ⟨hrow, hshape⟩ := he ho.2.2 fun _ => ho.2.1
    exact ⟨(hx ho.1 (by simp [RowKind.Shaped])).1, hshape rfl, hrow⟩
  empty _ _ _ := ⟨trivial, fun _ => trivial⟩
  bound hb hr _ _ := by
    obtain ⟨hshape, hrow⟩ := ordered_wrap.mp (hs _ _ hb)
    exact hagain _ _ _ hr hrow hshape
  other := by
    intro k v _ _ _
    refine RowKind.splice_ordered ?_ v
    rcases hv : s.lookup v with _ | x
    · trivial
    · exact hs v x hv
  extend := by
    intro k f ty ty' rest rest' hty hrest ho hsh
    obtain ⟨hrow, hshape⟩ := hrest ho.2 fun e => (hsh e).2
    refine ⟨?_, RowKind.shaped_cons hshape f _⟩
    cases k with
    | record => exact ⟨hty ho.1, hrow⟩
    | effect => exact RowType.ordered_put (hty ho.1) hrow f

/-- A variable that is not bound stays where it is. In an effect row the labels behind
the tail may be lost, its own are kept. -/
theorem walk_keeps {u : TypeVar} (hn : s.lookup u = none) :
    WalkRule s again (fun t t' => t.Ordered → u ∈ t.free_vars → u ∈ t'.free_vars)
      (fun k r r' => r.Ordered →
        (∀ f t, r.get f = some t → u ∈ t.free_vars → ∃ t', r'.get f = some t' ∧ u ∈ t'.free_vars) ∧
        (r.tail = some u → r'.tail = some u) ∧
        (k = .record → u ∈ r.free_vars → u ∈ r'.free_vars)) := by
  have heffect : ∀ {r r' : RowType}, r.InOrder → u ∈ r.free_vars →
      (∀ f t, r.get f = some t → u ∈ t.free_vars → ∃ t', r'.get f = some t' ∧ u ∈ t'.free_vars) →
      (r.tail = some u → r'.tail = some u) → u ∈ r'.free_vars := by
    intro r r' hin hu hget htail
    obtain ⟨f, x, hf, hux⟩ | ht := hin.mem_free_vars hu
    · obtain ⟨x', hf', hux'⟩ := hget f x hf hux
      exact get_vars hf' u hux'
    · exact tail_vars (htail ht)
  constructor
  case var =>
    intro v _ hu
    obtain rfl := mem_singleton.mp hu
    simp [hn, MonoType.free_vars]
  case con =>
    exact fun _ _ hu => hu
  case arrow =>
    intro a a' b b' ha hb ho hu
    exact mem_append.mpr ((mem_append.mp hu).imp (ha ho.1) (hb ho.2))
  case record =>
    exact fun hr ho hu => (hr ho).2.2 rfl hu
  case effect =>
    intro r r' hr ho hu
    obtain ⟨hget, htail, -⟩ := hr ho.2
    exact heffect ho.1 hu hget htail
  case typed =>
    intro x x' e e' hx he ho hu
    obtain ⟨hget, htail, -⟩ := he ho.2.2
    exact mem_append.mpr ((mem_append.mp hu).imp (fun hu => (hx ho.1).2.2 rfl hu)
      fun hu => heffect ho.2.1 hu hget htail)
  case empty =>
    exact fun _ _ => ⟨fun f t hf => (by cases hf), id, fun _ => id⟩
  case bound =>
    intro k v next r' hb _ _
    have hne : u ≠ v := by
      rintro rfl
      rw [hn] at hb
      cases hb
    refine ⟨fun f t hf => (by cases hf), ?_, ?_⟩
    · exact fun ht => absurd (Option.some.inj ht).symm hne
    · exact fun _ hu => absurd (mem_singleton.mp hu) hne
  case other =>
    intro k v _ _
    have hv : u = v → k.splice v ((s.lookup v).getD (.Var v)) = .RowVar u := by
      rintro rfl
      rw [hn]
      exact RowKind.splice_var ..
    refine ⟨fun f t hf => (by cases hf), ?_, ?_⟩
    · intro ht
      rw [hv (Option.some.inj ht).symm]
      rfl
    · intro _ hu
      rw [hv (mem_singleton.mp hu)]
      exact mem_singleton.mpr rfl
  case extend =>
    intro k f ty ty' rest rest' hty hrest ho
    obtain ⟨hget, htail, hvars⟩ := hrest ho.2
    refine ⟨?_, ?_, ?_⟩
    · intro e t he hut
      rw [RowKind.get_cons]
      simp only [RowType.get] at he
      split at he
      · rename_i hef
        cases he
        exact ⟨ty', if_pos hef, hty ho.1 hut⟩
      · rename_i hef
        rw [if_neg hef]
        exact hget e t he hut
    · rw [RowKind.tail_cons]
      exact htail
    · rintro rfl hu
      exact mem_append.mpr ((mem_append.mp hu).imp (hty ho.1) (hvars rfl))

end

namespace Substitution

variable {t t' : MonoType}

theorem apply_rows_ordered (hs : ∀ v t, s.lookup v = some t → t.Ordered) (n : Nat) (k : RowKind)
    (r r' : RowType) (h : s.apply_rows n k r = .ok r') (hr : r.Ordered) (hk : k.Shaped r) :
    r'.Ordered ∧ k.Shaped r' := by
  induction n generalizing k r r' with
  | zero => cases h
  | succ n ih => exact (walk_orders hs ih).row r k h hr hk

theorem apply_ordered (hs : ∀ v t, s.lookup v = some t → t.Ordered) (ho : t.Ordered)
    (h : s.apply n t = .ok t') : t'.Ordered :=
  (walk_orders hs (apply_rows_ordered hs n)).type t h ho

theorem apply_effect_row_ordered (hs : ∀ v t, s.lookup v = some t → t.Ordered) {r r' : RowType}
    (ho : r.InOrder ∧ r.Ordered) (h : s.apply_effect_row n r = .ok r') : r'.Ordered :=
  ((walk_orders hs (apply_rows_ordered hs n)).row r .effect h ho.2 fun _ => ho.1).1

/-! ## Bindings that lead to each other -/

def Loops (s : Substitution) : Prop := ∃ u w, s.Leads u w ∧ s.Leads w u

theorem Loops.not_acyclic (h : s.Loops) : ¬ s.Acyclic := by
  obtain ⟨u, w, huw, hwu⟩ := h
  exact fun hac => hac u (.tail (.single huw) hwu)

/-- The composition takes the bindings of `s₂` as they are. -/
theorem Leads.composed {v u : TypeVar} (h : s₂.Leads v u) (hc : s₂.compose n s₁ = .ok s₃) :
    s₃.Leads v u := by
  obtain ⟨t, hv, hu⟩ := h
  rcases lookup_compose hc v with ⟨t', h2, h3⟩ | ⟨h2, -, -⟩ | ⟨-, -, h2, -⟩
  · rw [hv] at h2
    cases h2
    exact ⟨t, h3, hu⟩
  · rw [hv] at h2
    cases h2
  · rw [hv] at h2
    cases h2

/-- Those of `s₁` still lead to the variables that `s₂` leaves alone. -/
theorem Leads.kept {v u : TypeVar} (h : s₁.Leads v u)
    (hord : ∀ v t, s₁.lookup v = some t → t.Ordered) (hv : s₂.lookup v = none)
    (hu : s₂.lookup u = none) (hc : s₂.compose n s₁ = .ok s₃) : s₃.Leads v u := by
  obtain ⟨t, ht, hut⟩ := h
  rcases lookup_compose hc v with ⟨t', h2, -⟩ | ⟨-, h1, -⟩ | ⟨t₁, t', -, h1, ha, h3⟩
  · rw [hv] at h2
    cases h2
  · rw [ht] at h1
    cases h1
  · rw [ht] at h1
    cases h1
    exact ⟨t', h3, (walk_keeps hu).type t ha (hord v t ht) hut⟩

end Substitution

/-! ## What a run leaves behind -/

/-- A run from `g` to `g'` over `V` binds and holds only what it knows. -/
structure Within (V : List TypeVar) (g g' : FreshVarGen) (s : Substitution) : Prop where
  le : g.next ≤ g'.next
  dom : ∀ v t, s.lookup v = some t → Known V g g' v
  ran : ∀ v u, s.Leads v u → Known V g g' u
  ordered : ∀ v t, s.lookup v = some t → t.Ordered

namespace Within

theorem unbound_of_le (h : Within V g g' s) (hV : ∀ v ∈ V, v < g.next) {v : TypeVar}
    (hv : g'.next ≤ v) : s.lookup v = none := by
  rcases hb : s.lookup v with _ | t
  · rfl
  · exact absurd ((h.dom v t hb).lt hV h.le) (Nat.not_lt.mpr hv)

/-- A run over what a run before it knows. -/
theorem widen (h : Within W g₁ g₂ s) (hW : ∀ v ∈ W, Known V g g₁ v) (hg : g.next ≤ g₁.next) :
    Within V g g₂ s :=
  ⟨hg.trans h.le, fun v t hv => (h.dom v t hv).trans hW hg h.le,
    fun v u hu => (h.ran v u hu).trans hW hg h.le, h.ordered⟩

/-- A variable behind those of `V` is known. -/
theorem known_of_behind (h : Within V g g₁ s) {us : List TypeVar} {u : TypeVar}
    (hV : ∀ v ∈ us, Known V g g₁ v) (hu : Behind [s] u us) : Known V g g₁ u := by
  obtain ⟨w, hw, hwu⟩ := hu
  rcases ReflTransGen.cases_tail (way_found hwu) with rfl | ⟨x, -, hxu⟩
  · exact hV _ hw
  · exact h.ran x u hxu

theorem compose (h₁ : Within V g g₁ s₁) (h₂ : Within V g g₂ s₂) (hle : g₁.next ≤ g₂.next)
    (hc : s₂.compose n s₁ = .ok s₃) : Within V g g₂ s₃ := by
  refine ⟨h₂.le, ?_, ?_, ?_⟩
  · intro v t hv
    rcases lookup_compose_some hc hv with h2 | ⟨t₁, -, h1, -⟩
    · exact h₂.dom v t h2
    · exact (h₁.dom v t₁ h1).mono hle
  · rintro v u ⟨t, hv, hu⟩
    rcases lookup_compose_some hc hv with h2 | ⟨t₁, -, h1, ha⟩
    · exact h₂.ran v u ⟨t, h2, hu⟩
    · exact h₂.known_of_behind (fun w hw => (h₁.ran v w ⟨t₁, h1, hw⟩).mono hle)
        (apply_reach ha u hu)
  · intro v t hv
    rcases lookup_compose_some hc hv with h2 | ⟨t₁, -, h1, ha⟩
    · exact h₂.ordered v t h2
    · exact apply_ordered h₂.ordered (h₁.ordered v t₁ h1) ha

/-- What `apply` makes of a type over `V`. -/
theorem applied (h : Within V g g₁ s) {t t' : MonoType} (ho : t.Ordered)
    (ht : ∀ v ∈ t.free_vars, v ∈ V) (ha : s.apply n t = .ok t') :
    t'.Ordered ∧ ∀ v ∈ t'.free_vars, Known V g g₁ v :=
  ⟨apply_ordered h.ordered ho ha, fun u hu =>
    h.known_of_behind (fun v hv => .inl (ht v hv)) (apply_reach ha u hu)⟩

theorem applied_effect (h : Within V g g₁ s) {r r' : RowType} (ho : r.InOrder ∧ r.Ordered)
    (hr : ∀ v ∈ r.free_vars, v ∈ V) (ha : s.apply_effect_row n r = .ok r') :
    r'.Ordered ∧ ∀ v ∈ r'.free_vars, Known V g g₁ v :=
  ⟨(apply_effect_row_ordered h.ordered ho ha), fun u hu =>
    h.known_of_behind (fun v hv => .inl (hr v hv)) (apply_effect_row_reach ha u hu)⟩

end Within

/-- What a run has bound after its steps, where `P` are the substitutions found
before it. -/
structure Ends (P : List Substitution) (V : List TypeVar) (g g' : FreshVarGen) (s : Substitution)
    (steps : List RunStep) : Prop where
  within : Within V g g' s
  /-- Where no step binds a variable again, the bindings are of new variables. -/
  once : (∀ st ∈ steps, st.Unbound) → ∀ p ∈ P, ∀ v t, s.lookup v = some t → p.lookup v = none
  no_cycle : (∀ st ∈ steps, st.Checked) → NoCycle P → NoCycle (s :: P)
  loops : (∀ st ∈ steps, st.Unbound) → (∃ st ∈ steps, ¬ st.Uncrossed) → s.Loops

namespace Ends

theorem empty (P : List Substitution) (V : List TypeVar) (g : FreshVarGen) :
    Ends P V g g .empty [] where
  within := ⟨le_refl _, fun v t h => by simp at h, fun v u h => by simp [Leads] at h,
    fun v t h => by simp at h⟩
  once _ _ _ v t h := by simp at h
  no_cycle _ hP v hv := hP v (TransGen.mono (fun x y hxy =>
    (found_cons.mp hxy).resolve_left (by simp [Leads])) v v hv)
  loops _ h := by simp at h

theorem sub (h : Ends P V g g₁ s after) (hVW : ∀ v ∈ V, v ∈ W) : Ends P W g g₁ s after :=
  ⟨h.within.widen (fun v hv => .inl (hVW v hv)) (le_refl _), h.once, h.no_cycle, h.loops⟩

/-- A run, and one over what it leaves. -/
theorem compose (h₁ : Ends P V g g₁ s₁ before) (h₂ : Ends (s₁ :: P) V g g₂ s₂ after)
    (hle : g₁.next ≤ g₂.next) (hc : s₂.compose n s₁ = .ok s₃) :
    Ends P V g g₂ s₃ (before ++ after) := by
  refine ⟨h₁.within.compose h₂.within hle hc, ?_, ?_, ?_⟩
  · intro hall p hp v t hv
    rcases lookup_compose_some hc hv with h2 | ⟨t₁, -, h1, -⟩
    · exact h₂.once (fun st hst => hall st (mem_append_right _ hst)) p (.tail _ hp) v t h2
    · exact h₁.once (fun st hst => hall st (mem_append_left _ hst)) p hp v t₁ h1
  · intro hall hP
    have h := h₂.no_cycle (fun st hst => hall st (mem_append_right _ hst))
      (h₁.no_cycle (fun st hst => hall st (mem_append_left _ hst)) hP)
    exact h.compose hc
  · rintro hall ⟨st, hst, hcross⟩
    have honce := h₂.once (fun st hst => hall st (mem_append_right _ hst)) s₁ (.head _)
    rcases mem_append.mp hst with hst | hst
    · obtain ⟨u, w, huw, hwu⟩ := h₁.loops (fun st hst => hall st (mem_append_left _ hst))
        ⟨st, hst, hcross⟩
      -- the second run binds neither of the two
      have hleft : ∀ v x, s₁.Leads v x → s₂.lookup v = none := by
        rintro v x ⟨t, hv, -⟩
        rcases hb : s₂.lookup v with _ | t'
        · rfl
        · rw [honce v t' hb] at hv
          cases hv
      have hord := h₁.within.ordered
      exact ⟨u, w, huw.kept hord (hleft u w huw) (hleft w u hwu) hc,
        hwu.kept hord (hleft w u hwu) (hleft u w huw) hc⟩
    · obtain ⟨u, w, huw, hwu⟩ := h₂.loops (fun st hst => hall st (mem_append_right _ hst))
        ⟨st, hst, hcross⟩
      exact ⟨u, w, huw.composed hc, hwu.composed hc⟩

theorem of_step (hw : Within V g g' s) (hbinds : ∀ v t, s.lookup v = some t → v ∈ st.binds)
    (hcheck : st.Checked → NoCycle st.earlier → NoCycle (s :: st.earlier))
    (hloops : ¬ st.Uncrossed → s.Loops) : Ends st.earlier V g g' s [st] where
  within := hw
  once hall p hp v t hv := hall st (.head _) p hp v (hbinds v t hv)
  no_cycle hall := hcheck (hall st (.head _))
  loops := by
    rintro - ⟨st', hst', hcross⟩
    rw [mem_singleton.mp hst'] at hcross
    exact hloops hcross

/-- A step that binds nothing. -/
theorem quiet (h : Ends P V g g₁ s before) (hst : st.Uncrossed) :
    Ends P V g g₁ s (before ++ [st]) where
  within := h.within
  once hall := h.once fun st hst => hall st (mem_append_left _ hst)
  no_cycle hall := h.no_cycle fun st hst => hall st (mem_append_left _ hst)
  loops hall hex := by
    obtain ⟨st', hst', hcross⟩ := hex
    rcases mem_append.mp hst' with hst' | hst'
    · exact h.loops (fun st hst => hall st (mem_append_left _ hst)) ⟨st', hst', hcross⟩
    · rw [mem_singleton.mp hst'] at hcross
      exact absurd hst hcross

end Ends

theorem Ends.then (h₁ : Ends P V g g₁ s₁ before) (hW : ∀ v ∈ W, Known V g g₁ v)
    (h₂ : Ends (s₁ :: P) W g₁ g₂ s₂ after) (hc : s₂.compose n s₁ = .ok s₃) :
    Ends P V g g₂ s₃ (before ++ after) :=
  h₁.compose ⟨h₂.within.widen hW h₁.within.le, h₂.once, h₂.no_cycle, h₂.loops⟩
    h₂.within.le hc

/-- Nothing from the generator on is bound. -/
def Past (P : List Substitution) (g : FreshVarGen) : Prop :=
  ∀ p ∈ P, ∀ v, g.next ≤ v → p.lookup v = none

theorem Within.past (h : Within V g g₁ s) (hV : ∀ v ∈ V, v < g.next) (hP : Past P g) :
    Past (s :: P) g₁ := by
  intro p hp v hv
  rcases mem_cons.mp hp with rfl | hp
  · exact h.unbound_of_le hV hv
  · exact hP p hp v (h.le.trans hv)

theorem ends_bind {v : TypeVar} {t : MonoType} (hv : v ∈ V) (ht : ∀ u ∈ t.free_vars, u ∈ V)
    (ho : t.Ordered) : Ends P V g g (Substitution.singleton v t) [.bind P v t] := by
  have hlook : ∀ {w u}, (Substitution.singleton v t).lookup w = some u → w = v ∧ u = t :=
    lookup_singleton_some
  refine @Ends.of_step _ g g V (.bind P v t) ⟨le_refl _, ?_, ?_, ?_⟩ ?_ ?_ ?_
  · intro w x hw
    rw [(hlook hw).1]
    exact .inl hv
  · rintro w u ⟨x, hw, hu⟩
    rw [(hlook hw).2] at hu
    exact .inl (ht u hu)
  · intro w x hw
    rw [(hlook hw).2]
    exact ho
  · exact fun w x hw => mem_singleton.mpr (hlook hw).1
  · intro hcheck hP
    refine hP.of_added (fun u hu hback => hcheck ⟨u, hu, hback⟩) ?_
    rintro x y ⟨z, hx, hy⟩
    rw [(hlook hx).2] at hy
    exact ⟨(hlook hx).1, hy⟩
  · exact fun hcr => absurd trivial hcr

/-! ### Tails -/

/-- Extras that a run knows. -/
structure KnownExtras (V : List TypeVar) (g g₁ : FreshVarGen) (E : Fields) : Prop where
  nodup : (keys E).Nodup
  ordered : ∀ p ∈ E, p.2.Ordered
  known : ∀ v ∈ extra_vars E, Known V g g₁ v

section

variable {E : Fields} {k : RowKind} {o : Option TypeVar} {v u : TypeVar} {ts : TailStep}

theorem mem_row_vars : u ∈ (k.wrap (from_map E o)).free_vars ↔ u ∈ extra_vars E ∨ o = some u := by
  rw [RowKind.free_vars_wrap, mem_free_vars_from_map, mem_extra_vars]

theorem KnownExtras.row (h : KnownExtras V g g₁ E) (k : RowKind) (o : Option TypeVar) :
    (k.wrap (from_map E o)).Ordered :=
  ordered_wrap.mpr ⟨fun _ => inOrder_from_map h.nodup o, ordered_from_map h.ordered o⟩

theorem ends_tail (hv : v ∈ V) (hb : v ∈ ts.binds) (h : KnownExtras V g g₁ E)
    (hle : g.next ≤ g₁.next) (hcr : ts.Uncrossed)
    (hcheck : ts.Checked (ts.subst :: P) → ¬ Behind (ts.subst :: P) v (extra_vars E)) :
    Ends (ts.subst :: P) V g g₁ (Substitution.singleton v (k.wrap (from_map E none)))
      [.tails P k ts] := by
  have hlook : ∀ {w u}, (Substitution.singleton v (k.wrap (from_map E none))).lookup w = some u →
      w = v ∧ u = k.wrap (from_map E none) := lookup_singleton_some
  have hleads : ∀ w u, (Substitution.singleton v (k.wrap (from_map E none))).Leads w u →
      w = v ∧ u ∈ extra_vars E := by
    rintro w u ⟨x, hw, hu⟩
    rw [(hlook hw).2, mem_row_vars] at hu
    exact ⟨(hlook hw).1, by simpa using hu⟩
  refine @Ends.of_step _ g g₁ V (.tails P k ts) ⟨hle, ?_, ?_, ?_⟩ ?_ ?_ ?_
  · intro w x hw
    rw [(hlook hw).1]
    exact .inl hv
  · exact fun w u hw => h.known u (hleads w u hw).2
  · intro w x hw
    rw [(hlook hw).2]
    exact h.row k none
  · intro w x hw
    rw [(hlook hw).1]
    exact hb
  · exact fun hst hP => hP.of_added (fun u hu hback => hcheck hst ⟨u, hu, hback⟩) hleads
  · exact fun hno => absurd hcr hno

/-- The two tails of a checked step close no cycle. -/
theorem no_cycle_of_tails {av bv r : TypeVar} (ha : ts.a_tail = some av) (hb : ts.b_tail = some bv)
    (hne : av ≠ bv) (hra : r ≠ av) (hrb : r ≠ bv) (hr : ∀ p ∈ P, p.lookup r = none)
    (h : ts.Checked P) (hP : NoCycle P) :
    NoCycle (twoTails k av bv r ts.a_only ts.b_only :: P) := by
  -- the new tail leads nowhere
  have hnew : ∀ w, ReflTransGen (Found P) r w → w = r := by
    intro w hw
    rcases hw.cases_head with rfl | ⟨x, ⟨p, hp, t, ht, -⟩, -⟩
    · rfl
    · rw [hr p hp] at ht
      cases ht
  have hA : ∀ u, u ∈ extra_vars ts.b_only ∨ u = r → ¬ ReflTransGen (Found P) u av := by
    rintro u (hu | rfl) hback
    · exact h.left av ha ⟨u, hu, hback⟩
    · exact hra (hnew av hback).symm
  have hB : ∀ u, u ∈ extra_vars ts.a_only ∨ u = r → ¬ ReflTransGen
      (fun x y => Found P x y ∨ x = av ∧ (y ∈ extra_vars ts.b_only ∨ y = r)) u bv := by
    intro u hu hback
    obtain hub | ⟨hav, w, hw, hwb⟩ := way_of_added hA hback
    · obtain hu | hu := hu
      · exact h.right bv hb ⟨u, hu, hub⟩
      · exact hrb (hnew bv (hu ▸ hub)).symm
    · obtain hu | hu := hu
      · obtain hw | hw := hw
        · exact h.both av bv ha hb hne ⟨⟨w, hw, hwb⟩, ⟨u, hu, hav⟩⟩
        · exact hrb (hnew bv (hw ▸ hwb)).symm
      · exact hra (hnew av (hu ▸ hav)).symm
  intro x hx
  refine no_cycle_of_added (no_cycle_of_added hP hA) hB x (TransGen.mono ?_ x x hx)
  intro y z hyz
  rcases found_cons.mp hyz with ⟨t, ht, hz⟩ | hyz
  · rcases lookup_twoTails ht with ⟨rfl, rfl⟩ | ⟨rfl, rfl⟩
    · rw [mem_row_vars, Option.some.injEq] at hz
      exact .inr ⟨rfl, hz.imp_right Eq.symm⟩
    · rw [mem_row_vars, Option.some.injEq] at hz
      exact .inl (.inr ⟨rfl, hz.imp_right Eq.symm⟩)
  · exact .inl (.inl hyz)

theorem ends_both {av bv : TypeVar} (ha : ts.a_tail = some av) (hb : ts.b_tail = some bv)
    (hne : av ≠ bv) (haV : av ∈ V) (hbV : bv ∈ V) (hV : ∀ v ∈ V, v < g₁.next)
    (hka : KnownExtras V g g₁ ts.a_only) (hkb : KnownExtras V g g₁ ts.b_only)
    (hP : Past (ts.subst :: P) g₁) (hle : g.next ≤ g₁.next) (hg : g₂.next = g₁.next + 1) :
    Ends (ts.subst :: P) V g g₂ (twoTails k av bv g₁.next ts.a_only ts.b_only)
      [.tails P k ts] := by
  have hle' : g₁.next ≤ g₂.next := by omega
  refine @Ends.of_step _ g g₂ V (.tails P k ts) ⟨hle.trans hle', ?_, ?_, ?_⟩ ?_ ?_ ?_
  · intro w x hw
    rcases lookup_twoTails hw with ⟨rfl, -⟩ | ⟨rfl, -⟩
    · exact .inl hbV
    · exact .inl haV
  · rintro w u ⟨x, hw, hu⟩
    have hnew : Known V g g₂ g₁.next := .inr ⟨hle, hg ▸ Nat.lt_succ_self _⟩
    rcases lookup_twoTails hw with ⟨-, rfl⟩ | ⟨-, rfl⟩
    · obtain hu | hu := mem_row_vars.mp hu
      · exact (hka.known u hu).mono hle'
      · exact Option.some.inj hu ▸ hnew
    · obtain hu | hu := mem_row_vars.mp hu
      · exact (hkb.known u hu).mono hle'
      · exact Option.some.inj hu ▸ hnew
  · intro w x hw
    rcases lookup_twoTails hw with ⟨-, rfl⟩ | ⟨-, rfl⟩
    · exact hka.row k _
    · exact hkb.row k _
  · intro w x hw
    simp only [RunStep.binds, TailStep.binds, ha, hb, if_neg hne, mem_cons, List.not_mem_nil,
      or_false]
    exact (lookup_twoTails hw).symm.imp And.left And.left
  · exact no_cycle_of_tails ha hb hne (Nat.ne_of_gt (hV av haV)) (Nat.ne_of_gt (hV bv hbV))
      fun p hp => hP p hp _ (le_refl _)
  · intro hcr
    -- each tail stands in the extras that the other one gets
    simp only [RunStep.Uncrossed, TailStep.Uncrossed, not_forall, not_not] at hcr
    obtain ⟨x, y, hx, hy, -, hya, hxb⟩ := hcr
    cases ha.symm.trans hx
    cases hb.symm.trans hy
    exact ⟨av, bv, ⟨_, lookup_twoTails_left hne, mem_row_vars.mpr (.inl hya)⟩,
      ⟨_, lookup_twoTails_right, mem_row_vars.mpr (.inl hxb)⟩⟩

theorem Ends.solved (h₁ : Ends P V g g₁ ts.subst before) (hV : ∀ v ∈ V, v < g.next)
    (hP : Past P g) (htails : ∀ v, ts.a_tail = some v ∨ ts.b_tail = some v → v ∈ V)
    (hka : KnownExtras V g g₁ ts.a_only) (hkb : KnownExtras V g g₁ ts.b_only)
    (h : ts.solve k n g₁ = .ok (s, g₂)) : Ends P V g g₂ s (before ++ [.tails P k ts]) := by
  have hle := h₁.within.le
  cases solve_step h with
  | closed ha =>
    refine h₁.quiet ?_
    intro av bv hx
    rw [ha] at hx
    cases hx
  | same ha hb =>
    refine h₁.quiet ?_
    intro av bv hx hy hne
    cases ha.symm.trans hx
    cases hb.symm.trans hy
    exact absurd rfl hne
  | left ha hb _ _ hc =>
    refine h₁.compose (ends_tail (htails _ (.inl ha)) ?_ hkb hle ?_ fun h => h.left _ ha)
      (le_refl _) hc
    · simp [TailStep.binds, ha, hb]
    · intro _ bv _ hy
      rw [hb] at hy
      cases hy
  | right ha hb _ _ hc =>
    refine h₁.compose (ends_tail (htails _ (.inr hb)) ?_ hka hle ?_ fun h => h.right _ hb)
      (le_refl _) hc
    · simp [TailStep.binds, ha, hb]
    · intro av _ hx
      rw [ha] at hx
      cases hx
  | both ha hb hne _ _ hg hc =>
    exact h₁.compose (ends_both ha hb hne (htails _ (.inl ha)) (htails _ (.inr hb))
      (fun v hv => (hV v hv).trans_le hle) hka hkb (h₁.within.past hV hP) hle (FreshVarGen.fresh_ok hg).2.1)
      ((FreshVarGen.fresh_ok hg).2.1 ▸ Nat.le_succ _) hc

end

/-! ## All runs -/

/-- What the calls below a row step do. -/
def EndsAll (unify : MonoType → MonoType → FreshVarGen → Call (Substitution × FreshVarGen))
    (steps : List Substitution → MonoType → MonoType → FreshVarGen → List RunStep) : Prop :=
  ∀ P a b g s g', unify a b g = .ok (s, g') → a.Ordered → b.Ordered →
    (∀ v ∈ a.free_vars ++ b.free_vars, v < g.next) → Past P g →
    Ends P (a.free_vars ++ b.free_vars) g g' s (steps P a b g)

section

variable {unify : MonoType → MonoType → FreshVarGen → Call (Substitution × FreshVarGen)}
  {steps : List Substitution → MonoType → MonoType → FreshVarGen → List RunStep}

/-- The call on what a run makes of two types. -/
theorem Ends.call (hu : EndsAll unify steps) (hV : ∀ v ∈ V, v < g.next) (hP : Past P g)
    (h₁ : Ends P V g g₁ s₁ before) {a b a' b' : MonoType} (ha : a.Ordered) (hb : b.Ordered)
    (hab : ∀ v ∈ a.free_vars ++ b.free_vars, v ∈ V) (hap : s₁.apply n a = .ok a')
    (hbp : s₁.apply n b = .ok b') (h : unify a' b' g₁ = .ok (s₂, g₂))
    (hc : s₂.compose n s₁ = .ok s₃) : Ends P V g g₂ s₃ (before ++ steps (s₁ :: P) a' b' g₁) := by
  obtain ⟨hao, hak⟩ := h₁.within.applied ha (fun v hv => hab v (mem_append_left _ hv)) hap
  obtain ⟨hbo, hbk⟩ := h₁.within.applied hb (fun v hv => hab v (mem_append_right _ hv)) hbp
  have hW : ∀ v ∈ a'.free_vars ++ b'.free_vars, Known V g g₁ v := fun v hv =>
    (mem_append.mp hv).elim (hak v) (hbk v)
  exact h₁.then hW (hu _ _ _ _ _ _ h hao hbo (fun v hv => (hW v hv).lt hV h₁.within.le)
    (h₁.within.past hV hP)) hc

theorem unify_shared_ends (hu : EndsAll unify steps) (hV : ∀ v ∈ V, v < g.next) (hP : Past P g)
    {L : List (String × MonoType × MonoType)} {subst : Substitution}
    (h₁ : Ends P V g g₁ subst before)
    (hL : ∀ p ∈ L, p.2.1.Ordered ∧ p.2.2.Ordered ∧ ∀ v ∈ p.2.1.free_vars ++ p.2.2.free_vars, v ∈ V)
    (h : unify_shared unify n L subst g₁ = .ok (s, g₂)) :
    Ends P V g g₂ s (before ++ shared_steps unify steps P n L subst g₁) := by
  induction L generalizing subst g₁ before with
  | nil =>
    cases h
    rw [shared_steps, List.append_nil]
    exact h₁
  | cons p L ih =>
    obtain ⟨f, ta, tb⟩ := p
    simp only [unify_shared, call_bind_ok, call_eq_ok] at h
    obtain ⟨ta', hta, tb', htb, ⟨s', g'⟩, hs, sub, hc, hrest⟩ := h
    have hsteps : shared_steps unify steps P n ((f, ta, tb) :: L) subst g₁
        = steps (subst :: P) ta' tb' g₁ ++ shared_steps unify steps P n L sub g' := by
      simp only [shared_steps, hta, htb, hs, hc]
    obtain ⟨hoa, hob, hvars⟩ := hL _ (.head _)
    rw [hsteps, ← List.append_assoc]
    exact ih (h₁.call hu hV hP hoa hob hvars hta htb hs hc) (fun q hq => hL q (.tail _ hq)) hrest

variable {a b : RowType} {k : RowKind}

theorem refined_extras (h₁ : Within V g g₁ s) {x y : RowType} (hx : x.Ordered)
    (hV : ∀ v ∈ x.free_vars, v ∈ V) {out : Fields}
    (h : refine_extras s n (only_fields x.to_map.1 y.to_map.1) = .ok out) :
    KnownExtras V g g₁ out := by
  obtain ⟨hkeys, hout⟩ := refine_extras_ok h
  have hfield : ∀ p ∈ out, p.2.Ordered ∧ ∀ v ∈ p.2.free_vars, Known V g g₁ v := by
    intro p hp
    obtain ⟨t, ht, hap⟩ := hout p hp
    have hget := mem_only_fields ht
    exact h₁.applied (get_ordered hx hget) (fun v hv => hV v (get_vars hget v hv)) hap
  refine ⟨hkeys ▸ nodup_only_fields x y, fun p hp => (hfield p hp).1, ?_⟩
  intro v hv
  obtain ⟨p, hp, hvp⟩ := mem_extra_vars.mp hv
  exact (hfield p hp).2 v hvp

theorem unify_row_kind_ends (hu : EndsAll unify steps) (ha : a.Ordered) (hb : b.Ordered)
    (hV : ∀ v ∈ a.free_vars ++ b.free_vars, v < g.next) (hP : Past P g)
    (h : unify_row_kind unify k n a b g = .ok (s, g')) :
    Ends P (a.free_vars ++ b.free_vars) g g' s (row_steps unify steps P k n a b g) := by
  simp only [unify_row_kind, call_bind_ok] at h
  obtain ⟨⟨ts, g₁⟩, hprep, hsolve⟩ := h
  obtain ⟨hsh, hao, hbo, hat, hbt⟩ := prepare_tails_ok hprep
  have h₁ : Ends P (a.free_vars ++ b.free_vars) g g₁ ts.subst
      ([] ++ shared_steps unify steps P n (shared_fields a.to_map.1 b.to_map.1) .empty g) := by
    refine unify_shared_ends hu hV hP (Ends.empty P _ g) ?_ hsh
    intro p hp
    obtain ⟨h1, h2⟩ := mem_shared_fields.mp hp
    refine ⟨get_ordered ha h1, get_ordered hb h2, ?_⟩
    intro v hv
    exact mem_append.mpr ((mem_append.mp hv).imp (get_vars h1 v) (get_vars h2 v))
  rw [List.nil_append] at h₁
  rw [row_steps_eq hprep]
  refine h₁.solved hV hP ?_ (refined_extras h₁.within ha (fun v hv => mem_append_left _ hv) hao)
    (refined_extras h₁.within hb (fun v hv => mem_append_right _ hv) hbo) hsolve
  rintro v (hv | hv)
  · exact mem_append_left _ (tail_vars (hat ▸ hv))
  · exact mem_append_right _ (tail_vars (hbt ▸ hv))

end

/-- Every run of the unifier: the induction over its calls. -/
theorem unify_with_fresh_ends (n : Nat) : EndsAll (unify_with_fresh n) (run_steps n) := by
  induction n with
  | zero =>
    intro P a b g s g' h
    cases h
  | succ n ih =>
    intro P a b g s g' h ha hb hV hP
    cases unify_step h with
    | same v =>
      have hsteps : run_steps (n + 1) P (.Var v) (.Var v) g = [] := if_pos rfl
      rw [hsteps]
      exact Ends.empty P _ g
    | con x => exact Ends.empty P _ g
    | left v _ _ hocc =>
      rw [run_steps_left hocc]
      exact ends_bind (.head _) (fun u hu => mem_append_right _ hu) hb
    | right v _ _ hno =>
      rw [run_steps_right hno]
      exact ends_bind (mem_append_right _ (.head _)) (fun u hu => mem_append_left _ hu) ha
    | @arrow a₁ a₂ a₂' b₁ b₂ b₂' _ g₁ _ s₁ s₂ _ h₁ hap hbp h₂ hs =>
      have hsub : ∀ v ∈ a₁.free_vars ++ b₁.free_vars,
          v ∈ (Arrow a₁ a₂).free_vars ++ (Arrow b₁ b₂).free_vars := by
        intro v hv
        simp only [MonoType.free_vars, mem_append] at hv ⊢
        tauto
      have hrun := (ih P a₁ b₁ g s₁ g₁ h₁ ha.1 hb.1 (fun v hv => hV v (hsub v hv)) hP).sub hsub
      rw [run_steps_arrow h₁ hap hbp]
      refine hrun.call ih hV hP ha.2 hb.2 ?_ hap hbp h₂ hs
      intro v hv
      simp only [MonoType.free_vars, mem_append] at hv ⊢
      tauto
    | @row k ra rb _ _ _ h =>
      rw [run_steps_row]
      simp only [RowKind.free_vars_wrap] at hV ⊢
      exact unify_row_kind_ends ih (ordered_wrap.mp ha).2 (ordered_wrap.mp hb).2 hV hP h
    | @typed va vb ea ea' eb eb' _ g₁ _ sv se _ hv hap hbp he hs =>
      have hsub : ∀ v ∈ va.free_vars ++ vb.free_vars,
          v ∈ (Typed va ea).free_vars ++ (Typed vb eb).free_vars := by
        intro v hv
        simp only [MonoType.free_vars, mem_append] at hv ⊢
        tauto
      have hrun := (unify_row_kind_ends ih ha.1 hb.1 (fun v hv => hV v (hsub v hv)) hP hv).sub hsub
      obtain ⟨hao, hak⟩ := hrun.within.applied_effect ha.2 (fun v hv => mem_append_left _
        (mem_append_right _ hv)) hap
      obtain ⟨hbo, hbk⟩ := hrun.within.applied_effect hb.2 (fun v hv => mem_append_right _
        (mem_append_right _ hv)) hbp
      have hW : ∀ v ∈ ea'.free_vars ++ eb'.free_vars,
          Known ((Typed va ea).free_vars ++ (Typed vb eb).free_vars) g g₁ v := fun v hv =>
        (mem_append.mp hv).elim (hak v) (hbk v)
      rw [run_steps_typed hv hap hbp]
      exact hrun.then hW (unify_row_kind_ends ih hao hbo
        (fun v hv => (hW v hv).lt hV hrun.within.le) (hrun.within.past hV hP) he) hs

/-- `{l: {| 0} | 0}` against `{m: {| 1} | 1}`: each extra holds the tail of its own row. -/
def crossedLeft : MonoType := .Record (.Extend "l" (.Record (.RowVar 0)) (.RowVar 0))

def crossedRight : MonoType := .Record (.Extend "m" (.Record (.RowVar 1)) (.RowVar 1))

def crossedRow (l : String) (v : TypeVar) : RowType :=
  .Extend l (.Record (.RowVar v)) (.RowVar 2)

def crossed : Substitution :=
  ⟨[(1, .Record (crossedRow "l" 0)), (0, .Record (crossedRow "m" 1))]⟩

theorem crossed_apply_rows (m : Nat) :
    crossed.apply_rows m .record (crossedRow "m" 1) = .error .div ∧
      crossed.apply_rows m .record (crossedRow "l" 0) = .error .div := by
  induction m with
  | zero => exact ⟨rfl, rfl⟩
  | succ m ih =>
    -- the walk enters the other row first
    have h0 : crossed.apply_rows (m + 1) .record (crossedRow "m" 1) = (do
          let ty ← (do
            let row ← crossed.apply_rows m .record (crossedRow "l" 0)
            return Record row)
          return RowType.Extend "m" ty (.RowVar 2)) := rfl
    have h1 : crossed.apply_rows (m + 1) .record (crossedRow "l" 0) = (do
          let ty ← (do
            let row ← crossed.apply_rows m .record (crossedRow "m" 1)
            return Record row)
          return RowType.Extend "l" ty (.RowVar 2)) := rfl
    rw [h0, h1, ih.1, ih.2]
    exact ⟨rfl, rfl⟩

/-- `{x: 0 | 1}` against `{x: Int, y: Str | 2}`. -/
def openLeft : MonoType := .Record (.Extend "x" (.Var 0) (.RowVar 1))

def openRight : MonoType :=
  .Record (.Extend "x" (.Con "Int") (.Extend "y" (.Con "Str") (.RowVar 2)))

def opened : Substitution :=
  ⟨[(2, .Record (.RowVar 3)), (1, .Record (.Extend "y" (.Con "Str") (.RowVar 3))), (0, .Con "Int")]⟩

theorem run_steps_open : run_steps 3 [] openLeft openRight { next := 3 } =
    [.bind [.empty] 0 (.Con "Int"),
      .tails [] .record ⟨⟨[(0, .Con "Int")]⟩, [], [("y", .Con "Str")], some 1, some 2⟩] := rfl

/-- Nothing that the run binds holds a variable of the two types. -/
theorem open_checked : ∀ st ∈ run_steps 3 [] openLeft openRight { next := 3 }, st.Checked := by
  have hnone : ∀ P v, ¬ Behind P v [] := by
    rintro P v ⟨u, hu, -⟩
    cases hu
  rw [run_steps_open]
  intro st hst
  simp only [mem_cons, List.not_mem_nil, or_false] at hst
  rcases hst with rfl | rfl
  · exact hnone _ _
  · exact ⟨fun av _ => hnone _ av, fun bv _ => hnone _ bv, fun av bv _ _ _ h => hnone _ bv h.1⟩

theorem open_unbound : ∀ st ∈ run_steps 3 [] openLeft openRight { next := 3 }, st.Unbound := by
  rw [run_steps_open]
  intro st hst
  simp only [mem_cons, List.not_mem_nil, or_false] at hst
  rcases hst with rfl | rfl
  · exact fun p hp v _ => by simp_all [RunStep.earlier]
  · intro p hp v hv
    simp only [RunStep.earlier, RunStep.binds, TailStep.binds, mem_singleton] at hp hv
    subst hp
    simp at hv
    rcases hv with rfl | rfl <;> rfl

end paideia_as_shell_hm
