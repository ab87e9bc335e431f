-- The last step of the row unifiers, where the tails of two rows are bound to
-- the extras of the other side. From a prepared state the step makes the rows
-- the same, unless the two tails lead to each other or the shared fields had
-- bound a tail before.
import PaideiaAs.ShellHm.Yields

open Assoc

namespace paideia_as_shell_hm

open RowType Substitution
open RowKind (canon_wrap free_vars_wrap)
open List (mem_append_left mem_append_right)

variable {κ : TypeVar → Kind} {s : Substitution} {n : Nat}
  {g g₁ g₂ : FreshVarGen} {V : List TypeVar}

/-! ## Fields of a row -/

namespace RowType

variable {f : String} {t : MonoType}

theorem get_vars {r : RowType} (h : r.get f = some t) : ∀ v ∈ t.free_vars, v ∈ r.free_vars := by
  match r with
  | .Empty => cases h
  | .RowVar _ => cases h
  | .Extend g u rest =>
    simp only [get] at h
    simp only [free_vars, List.mem_append]
    split at h
    · cases h
      exact fun v hv => .inl hv
    · exact fun v hv => .inr (get_vars h v hv)

theorem tail_vars {r : RowType} {v : TypeVar} (h : r.tail = some v) : v ∈ r.free_vars := by
  match r with
  | .Empty => cases h
  | .RowVar w =>
    cases h
    exact List.mem_singleton_self v
  | .Extend g u rest => exact List.mem_append_right _ (tail_vars h)

theorem kinded_get {k : RowKind} {r : RowType} (hr : r.Kinded κ k) (h : r.get f = some t) :
    t.Kinded κ ∧ ∀ v ∈ t.free_vars, v ∈ r.free_vars := by
  refine ⟨?_, get_vars h⟩
  match r with
  | .Empty => cases h
  | .RowVar _ => cases h
  | .Extend g u rest =>
    simp only [get] at h
    split at h
    · cases h
      exact hr.1
    · exact (kinded_get hr.2 h).1

theorem kinded_tail {k : RowKind} {r : RowType} (hr : r.Kinded κ k) {v : TypeVar}
    (h : r.tail = some v) : κ v = .row k ∧ v ∈ r.free_vars := by
  refine ⟨?_, tail_vars h⟩
  match r with
  | .Empty => cases h
  | .RowVar w =>
    cases h
    exact hr
  | .Extend g u rest => exact (kinded_tail hr.2 h).1

variable {fields : Fields}

theorem kinded_foldr {k : RowKind} (h : ∀ p ∈ fields, p.2.Kinded κ)
    {o : Option TypeVar} (ho : ∀ v, o = some v → κ v = .row k) :
    (fields.foldr (fun p acc => RowType.Extend p.1 p.2 acc) (ended o)).Kinded κ k := by
  induction fields with
  | nil =>
    cases o with
    | none => trivial
    | some v => exact ho v rfl
  | cons p fields ih =>
    exact ⟨h p (.head _), ih fun q hq => h q (.tail _ hq)⟩

theorem kinded_from_map {k : RowKind} (h : ∀ p ∈ fields, p.2.Kinded κ)
    {o : Option TypeVar} (ho : ∀ v, o = some v → κ v = .row k) :
    (from_map fields o).Kinded κ k := by
  refine kinded_foldr (fun p hp => h p ?_) ho
  exact (List.perm_insertionSort _ fields).mem_iff.mp hp

theorem inOrder_foldr (h : fields.Pairwise fun p q => p.1 < q.1) (o : Option TypeVar) :
    (fields.foldr (fun p acc => RowType.Extend p.1 p.2 acc) (ended o)).InOrder := by
  induction fields with
  | nil => cases o <;> trivial
  | cons p fields ih =>
    obtain ⟨hp, hrest⟩ := List.pairwise_cons.mp h
    refine ⟨?_, ih hrest⟩
    intro g t hg
    rw [get_foldr] at hg
    exact hp (g, t) (mem_of_lookup hg)

theorem inOrder_from_map (hn : (keys fields).Nodup) (o : Option TypeVar) :
    (from_map fields o).InOrder := by
  unfold from_map
  refine inOrder_foldr ?_ o
  have hsorted := List.pairwise_insertionSort (fun a b : String × MonoType => a.1 ≤ b.1) fields
  have hn' : (keys (fields.insertionSort fun a b => a.1 ≤ b.1)).Nodup :=
    (((List.perm_insertionSort _ fields).map Prod.fst).nodup_iff).mpr hn
  have hne := List.pairwise_map.mp hn'
  exact (hsorted.and hne).imp fun h => lt_of_le_of_ne h.1 h.2

end RowType

theorem mem_shared_fields {a b : RowType} {p : String × MonoType × MonoType} :
    p ∈ shared_fields a.to_map.1 b.to_map.1 ↔ a.get p.1 = some p.2.1 ∧ b.get p.1 = some p.2.2 := by
  obtain ⟨f, t, u⟩ := p
  unfold shared_fields
  rw [(List.perm_insertionSort _ _).mem_iff, List.mem_filterMap]
  simp only [Option.map_eq_some_iff, Prod.exists, RowType.to_map_lookup]
  constructor
  · rintro ⟨g, x, hm, y, hy, he⟩
    simp only [Prod.mk.injEq] at he
    obtain ⟨rfl, rfl, rfl⟩ := he
    exact ⟨by rw [← to_map_lookup, lookup_iff_mem (to_map_nodup a)]; exact hm, hy⟩
  · rintro ⟨ha, hb⟩
    refine ⟨f, t, ?_, u, hb, rfl⟩
    rwa [← to_map_lookup, lookup_iff_mem (to_map_nodup a)] at ha

theorem lookup_only_fields (a b : RowType) (f : String) :
    (only_fields a.to_map.1 b.to_map.1).lookup f = if (b.get f).isNone then a.get f else none := by
  unfold only_fields
  have := lookup_filter a.to_map.1 (fun g => (b.get g).isNone = true) f
  simp only [to_map_lookup, Bool.decide_eq_true] at this ⊢
  exact this

theorem nodup_only_fields (a b : RowType) : (keys (only_fields a.to_map.1 b.to_map.1)).Nodup :=
  nodup_filter (to_map_nodup a) _

theorem mem_only_fields {a b : RowType} {p : String × MonoType}
    (h : p ∈ only_fields a.to_map.1 b.to_map.1) : a.get p.1 = some p.2 := by
  have hm := (List.mem_filter.mp h).1
  rw [← to_map_lookup, lookup_iff_mem (to_map_nodup a)]
  exact hm

theorem mem_extra_vars {extras : Fields} {u : TypeVar} :
    u ∈ extra_vars extras ↔ ∃ p ∈ extras, u ∈ p.2.free_vars := by
  simp [extra_vars]

theorem refine_extras_ok {extras out : Fields} (h : refine_extras s n extras = .ok out) :
    keys out = keys extras ∧ ∀ p ∈ out, ∃ t, (p.1, t) ∈ extras ∧ s.apply n t = .ok p.2 := by
  induction extras generalizing out with
  | nil =>
    cases h
    exact ⟨rfl, by simp⟩
  | cons p extras ih =>
    simp only [refine_extras, List.mapM_cons, call_bind_ok, call_eq_ok] at h
    obtain ⟨q, ⟨t, ht, hq⟩, rest, hrest, ho⟩ := h
    cases hq
    cases ho
    obtain ⟨hkeys, hall⟩ := ih hrest
    refine ⟨congrArg (p.1 :: ·) hkeys, ?_⟩
    intro q hq
    rcases List.mem_cons.mp hq with rfl | hq
    · exact ⟨p.2, .head _, ht⟩
    · obtain ⟨x, hx, hap⟩ := hall q hq
      exact ⟨x, .tail _ hx, hap⟩

/-! ## Before the tails -/

section

variable {a b : RowType} {k : RowKind} {st : TailStep} {σ : TypeVar → MonoType}

theorem prepare_tails_ok
    {unify : MonoType → MonoType → FreshVarGen → Call (Substitution × FreshVarGen)} (h : prepare_tails unify n a b g = .ok (st, g₁)) :
    unify_shared unify n (shared_fields a.to_map.1 b.to_map.1) .empty g = .ok (st.subst, g₁) ∧
      refine_extras st.subst n (only_fields a.to_map.1 b.to_map.1) = .ok st.a_only ∧
      refine_extras st.subst n (only_fields b.to_map.1 a.to_map.1) = .ok st.b_only ∧
      st.a_tail = a.tail ∧ st.b_tail = b.tail := by
  simp only [prepare_tails, call_bind_ok] at h
  obtain ⟨⟨sub, g'⟩, hsh, ao, hao, bo, hbo, he⟩ := h
  cases he
  exact ⟨hsh, hao, hbo, to_map_tail a, to_map_tail b⟩

def SharedSame (a b : RowType) (σ : TypeVar → MonoType) : Prop :=
  ∀ f t u, a.get f = some t → b.get f = some u → (t.subst σ).Same (u.subst σ)

/-- The state before the tails of `a` and `b` are bound, with what its bindings
lead to. -/
structure Prepared (κ : TypeVar → Kind) (a b : RowType) (k : RowKind) (g g' : FreshVarGen)
    (st : TailStep) (σ : TypeVar → MonoType) : Prop where
  past : ∀ v ∈ a.free_vars ++ b.free_vars, v < g.next
  yields : Yields κ (a.free_vars ++ b.free_vars) g g' st.subst
  resolves : st.subst.Resolves κ σ
  a_kinded : a.Kinded κ k
  b_kinded : b.Kinded κ k
  a_only : st.a_only = (only_fields a.to_map.1 b.to_map.1).map fun p => (p.1, p.2.subst σ)
  b_only : st.b_only = (only_fields b.to_map.1 a.to_map.1).map fun p => (p.1, p.2.subst σ)
  a_tail : st.a_tail = a.tail
  b_tail : st.b_tail = b.tail
  shared : SharedSame a b σ

theorem TailStep.tail_of_binds {v : TypeVar} (hv : v ∈ st.binds) :
    st.a_tail = some v ∨ st.b_tail = some v := by
  unfold TailStep.binds at hv
  rcases hat : st.a_tail with _ | av <;> rcases hbt : st.b_tail with _ | bv <;>
    simp only [hat, hbt] at hv
  · cases hv
  · simp_all
  · simp_all
  · split at hv
    · cases hv
    · simp_all [eq_comm]

namespace Prepared

section

variable (h : Prepared κ a b k g g₁ st σ)

include h

/-- The same state with its sides exchanged. -/
theorem flip : Prepared κ b a k g g₁
    { st with a_only := st.b_only, b_only := st.a_only, a_tail := st.b_tail, b_tail := st.a_tail }
    σ where
  past v hv := h.past v (by simpa [or_comm] using hv)
  yields := h.yields.sub fun v hv => by simpa [or_comm] using hv
  resolves := h.resolves
  a_kinded := h.b_kinded
  b_kinded := h.a_kinded
  a_only := h.b_only
  b_only := h.a_only
  a_tail := h.b_tail
  b_tail := h.a_tail
  shared f t u hf hf' := (h.shared f u t hf' hf).symm

/-- The extras of `b`: each is there once, and its variables are known and free. -/
theorem b_extras : (keys st.b_only).Nodup ∧
    ∀ p ∈ st.b_only, p.2.Kinded κ ∧ ∀ u ∈ p.2.free_vars,
      Known (a.free_vars ++ b.free_vars) g g₁ u ∧ st.subst.lookup u = none := by
  rw [h.b_only]
  refine ⟨?_, ?_⟩
  · rw [keys_map]
    exact nodup_only_fields b a
  · intro p hp
    obtain ⟨q, hq, rfl⟩ := List.mem_map.mp hp
    obtain ⟨hk, hv⟩ := kinded_get h.b_kinded (mem_only_fields hq)
    exact h.yields.subst_known h.resolves ⟨hk, fun v hm => mem_append_right _ (hv v hm)⟩

theorem a_extras : (keys st.a_only).Nodup ∧
    ∀ p ∈ st.a_only, p.2.Kinded κ ∧ ∀ u ∈ p.2.free_vars,
      Known (a.free_vars ++ b.free_vars) g g₁ u ∧ st.subst.lookup u = none := by
  obtain ⟨h1, h2⟩ := h.flip.b_extras
  refine ⟨h1, fun p hp => ⟨(h2 p hp).1, fun u hu => ⟨?_, ((h2 p hp).2 u hu).2⟩⟩⟩
  exact ((h2 p hp).2 u hu).1.sub fun v hv => by simpa [or_comm] using hv

theorem tail_known {v : TypeVar} (hv : st.a_tail = some v ∨ st.b_tail = some v) :
    κ v = .row k ∧ v ∈ a.free_vars ++ b.free_vars := by
  rcases hv with hv | hv
  · rw [h.a_tail] at hv
    obtain ⟨hk, hm⟩ := kinded_tail h.a_kinded hv
    exact ⟨hk, mem_append_left _ hm⟩
  · rw [h.b_tail] at hv
    obtain ⟨hk, hm⟩ := kinded_tail h.b_kinded hv
    exact ⟨hk, mem_append_right _ hm⟩

end

theorem bound_kind (h : Prepared κ a b k g g₁ st σ) {v : TypeVar} (hv : v ∈ st.binds) :
    κ v = .row k := (h.tail_known (TailStep.tail_of_binds hv)).1

/-- The bindings of a tail step: each tail gets the extras of a side, and maybe a
tail that is new. -/
def TailBinds (κ : TypeVar → Kind) (k : RowKind) (g₁ g₂ : FreshVarGen) (st : TailStep)
    (s' : Substitution) : Prop :=
  ∀ v t, s'.lookup v = some t → v ∈ st.binds ∧
    ∃ E o, t = k.wrap (from_map E o) ∧ (E = st.a_only ∨ E = st.b_only) ∧
      ∀ r, o = some r → g₁.next ≤ r ∧ r < g₂.next ∧ κ r = .row k

theorem extras (h : Prepared κ a b k g g₁ st σ) {E : Fields} (hE : E = st.a_only ∨ E = st.b_only) :
    (keys E).Nodup ∧ ∀ p ∈ E, p.2.Kinded κ ∧ ∀ u ∈ p.2.free_vars,
      Known (a.free_vars ++ b.free_vars) g g₁ u ∧ st.subst.lookup u = none := by
  rcases hE with rfl | rfl
  · exact h.a_extras
  · exact h.b_extras

/-- What the step binds keeps the kinds. -/
theorem tails_yield {s' : Substitution} {rank : TypeVar → Nat} (h : Prepared κ a b k g g₁ st σ)
    (hle : g₁.next ≤ g₂.next) (hb : TailBinds κ k g₁ g₂ st s') (hrank : s'.Ranked rank) :
    Yields κ (a.free_vars ++ b.free_vars) g g₂ s' ∧ Apart s' st.subst := by
  have hvars : ∀ v t u, s'.lookup v = some t → u ∈ t.free_vars →
      Known (a.free_vars ++ b.free_vars) g g₂ u ∧ st.subst.lookup u = none := by
    intro v t u hv hu
    obtain ⟨-, E, o, rfl, hE, ho⟩ := hb v t hv
    rw [free_vars_wrap, mem_free_vars_from_map] at hu
    rcases hu with ⟨p, hp, hu⟩ | hu
    · obtain ⟨hk, hn⟩ := ((h.extras hE).2 p hp).2 u hu
      exact ⟨hk.mono hle, hn⟩
    · obtain ⟨hle', hlt, -⟩ := ho u hu
      exact ⟨.inr ⟨h.yields.le.trans hle', hlt⟩, h.yields.unbound_of_le h.past hle'⟩
  refine ⟨⟨⟨?_, ⟨rank, hrank⟩, ?_⟩, h.yields.le.trans hle, ?_, fun v t u hv hu =>
    (hvars v t u hv hu).1⟩, fun v t u hv hu => (hvars v t u hv hu).2⟩
  · intro v t hv
    obtain ⟨hbv, E, o, rfl, hE, ho⟩ := hb v t hv
    rw [h.bound_kind hbv]
    exact ⟨_, rfl, fun _ => inOrder_from_map (h.extras hE).1 o,
      kinded_from_map (fun p hp => ((h.extras hE).2 p hp).1) fun r hr => (ho r hr).2.2⟩
  · intro v t u hk hv
    rw [h.bound_kind (hb v t hv).1] at hk
    cases hk
  · exact fun v t hv => .inl (h.tail_known (TailStep.tail_of_binds (hb v t hv).1)).2

/-- The rows after the step are as the step's bindings say. -/
theorem bind_tails {s' : Substitution} {rank : TypeVar → Nat} (h : Prepared κ a b k g g₁ st σ)
    (hunb : st.Unbound) (hle : g₁.next ≤ g₂.next) (hb : TailBinds κ k g₁ g₂ st s')
    (hrank : s'.Ranked rank) : ∃ σ', s'.Resolves κ σ' ∧
      Yields κ (a.free_vars ++ b.free_vars) g g₂ (s'.onto σ' st.subst) ∧
      (s'.onto σ' st.subst).Resolves κ fun v => (σ v).subst σ' := by
  obtain ⟨hY, hap⟩ := h.tails_yield hle hb hrank
  obtain ⟨σ', hσ'⟩ := hY.settled.exists_resolves
  refine ⟨σ', hσ', h.yields.onto hY.settled hσ' hle hY.dom hY.ran hap, ?_⟩
  refine Resolves.onto h.yields.settled h.resolves hY.settled hσ' hap ?_
  intro v t hv
  rcases hbv : s'.lookup v with _ | t'
  · rfl
  · rw [hunb v (hb v t' hbv).1] at hv
    cases hv

end Prepared

/-! ## The tails -/

def tailRow (k : RowKind) (σ : TypeVar → MonoType) : Option TypeVar → RowType
  | none => .Empty
  | some v => k.splice v (σ v)

theorem get_subst_tailRow (r : RowType) (f : String) :
    (r.subst σ k).get f = ((r.get f).map (MonoType.subst σ)).or ((tailRow k σ r.tail).get f) := by
  rw [r.get_subst k f]
  cases r.tail <;> rfl

theorem tail_subst_tailRow (r : RowType) : (r.subst σ k).tail = (tailRow k σ r.tail).tail := by
  rw [r.tail_subst k]
  cases r.tail <;> rfl

theorem rows_same (hshared : SharedSame a b σ) (ha : ∀ f t, a.get f = none → b.get f = some t →
      (tailRow k σ a.tail).get f = some (t.subst σ))
    (hb : ∀ f t, b.get f = none → a.get f = some t →
      (tailRow k σ b.tail).get f = some (t.subst σ))
    (hnone : ∀ f, a.get f = none → b.get f = none →
      (tailRow k σ a.tail).get f = (tailRow k σ b.tail).get f)
    (htail : (tailRow k σ a.tail).tail = (tailRow k σ b.tail).tail) :
    (k.wrap (a.subst σ k)).Same (k.wrap (b.subst σ k)) := by
  unfold MonoType.Same
  rw [canon_wrap, canon_wrap]
  congr 1
  rw [canon_eq_iff]
  refine ⟨by rw [tail_subst_tailRow, tail_subst_tailRow, htail], ?_⟩
  intro f
  rw [get_subst_tailRow, get_subst_tailRow]
  rcases hfa : a.get f with _ | t
  · rcases hfb : b.get f with _ | u
    · simp [hnone f hfa hfb]
    · simp [ha f u hfa hfb]
  · rcases hfb : b.get f with _ | u
    · simp [hb f t hfb hfa]
    · simp only [Option.map_some, Option.some_or]
      exact congrArg some (hshared f t u hfa hfb)

theorem SharedSame.then {σ' : TypeVar → MonoType} (h : SharedSame a b σ)
    (ha : a.Kinded κ k) (hb : b.Kinded κ k) (hσ : ∀ vs, Respects κ κ σ vs)
    (hσ' : ∀ vs, Respects κ κ σ' vs) : SharedSame a b fun v => (σ v).subst σ' := by
  intro f t u hf hf'
  rw [← t.subst_subst (kinded_get ha hf).1 (hσ _) fun v _ => hσ' _,
    ← u.subst_subst (kinded_get hb hf').1 (hσ _) fun v _ => hσ' _]
  exact (h f t u hf hf').subst σ'

namespace Prepared

/-- A tail that the step bound, and that was free before, holds the extras it got. -/
theorem tailRow_bound {s' : Substitution} {σ' : TypeVar → MonoType} {v : TypeVar}
    {only : Fields} {o : Option TypeVar} {x y : RowType}
    (h : Prepared κ a b k g g₁ st σ) (hσ' : s'.Resolves κ σ') (hk : κ v = .row k)
    (hx : x.Kinded κ k) (honly : only = only_fields x.to_map.1 y.to_map.1)
    (hfree : st.subst.lookup v = none)
    (hv : s'.lookup v = some (k.wrap (from_map (only.map fun p => (p.1, p.2.subst σ)) o)))
    (ho : ∀ r, o = some r → s'.lookup r = none) :
    (tailRow k (fun v => (σ v).subst σ') (some v)).tail = o ∧
    ∀ f, (tailRow k (fun v => (σ v).subst σ') (some v)).get f =
      (only.lookup f).map (MonoType.subst fun v => (σ v).subst σ') := by
  have hrow : (σ v).subst σ' = k.wrap ((from_map (only.map fun p => (p.1, p.2.subst σ)) o).subst σ' k) := by
    rw [h.resolves.unbound v hfree]
    simp only [MonoType.subst]
    rw [hσ'.row_bound v _ hv (by simp [hk]), RowKind.subst_wrap]
  have hend : tailRow k σ' o = ended o := by
    cases o with
    | none => rfl
    | some r => simp [tailRow, hσ'.unbound r (ho r rfl), ended]
  simp only [tailRow, hrow, RowKind.splice_wrap]
  refine ⟨?_, ?_⟩
  · rw [tail_subst_tailRow, tail_from_map, hend, tail_ended]
  · intro f
    have hn : (keys (only.map fun p => (p.1, p.2.subst σ))).Nodup := by
      rw [keys_map, honly]
      exact nodup_only_fields x y
    rw [get_subst_tailRow, tail_from_map, hend, get_ended, Option.or_none, get_from_map hn,
      lookup_map, Option.map_map]
    rcases hf : only.lookup f with _ | t
    · rfl
    · have hmem := mem_of_lookup hf
      rw [honly] at hmem
      have hkt := (kinded_get hx (mem_only_fields hmem)).1
      simp only [Option.map_some, Function.comp]
      rw [t.subst_subst hkt (h.resolves.respects _) fun v _ => hσ'.respects _]

variable {f : String} {av bv r : TypeVar}

section

variable (h : Prepared κ a b k g g₁ st σ)

include h

/-- A side without extras has every field of its row in the other row. -/
theorem get_of_a_only_empty (he : st.a_only = []) (hb : b.get f = none) : a.get f = none := by
  have hl := lookup_only_fields a b f
  rw [h.a_only, List.map_eq_nil_iff] at he
  rw [he, hb] at hl
  simpa using hl.symm

theorem get_of_b_only_empty (he : st.b_only = []) (ha : a.get f = none) : b.get f = none := by
  have hl := lookup_only_fields b a f
  rw [h.b_only, List.map_eq_nil_iff] at he
  rw [he, ha] at hl
  simpa using hl.symm

omit h in
theorem lookup_only_of_none {x y : RowType} (hy : y.get f = none) :
    (only_fields x.to_map.1 y.to_map.1).lookup f = x.get f := by
  rw [lookup_only_fields, hy]
  rfl

/-- No extras and no tails to bind: the shared fields decide. -/
theorem same_of_no_extras (ha : st.a_only = [])
    (hb : st.b_only = []) (ht : a.tail = b.tail) :
    (k.wrap (a.subst σ k)).Same (k.wrap (b.subst σ k)) := by
  refine rows_same h.shared ?_ ?_ ?_ (by rw [ht])
  · intro f t h1 h2
    rw [h.get_of_b_only_empty hb h1] at h2
    cases h2
  · intro f t h1 h2
    rw [h.get_of_a_only_empty ha h1] at h2
    cases h2
  · intro f _ _
    rw [ht]

/-- The step's bindings make the rows the same. -/
def SolvedBy (κ : TypeVar → Kind) (a b : RowType) (k : RowKind) (g g₂ : FreshVarGen) (st : TailStep)
    (s' : Substitution) : Prop :=
  Yields κ (a.free_vars ++ b.free_vars) g g₂ s' ∧ ∃ σ', s'.Resolves κ σ' ∧
    Yields κ (a.free_vars ++ b.free_vars) g g₂ (s'.onto σ' st.subst) ∧
    ∃ σ₃, (s'.onto σ' st.subst).Resolves κ σ₃ ∧
      (k.wrap (a.subst σ₃ k)).Same (k.wrap (b.subst σ₃ k))

/-- What the step makes of a tail: the extras of the other side and the new tail. -/
def TailGets (k : RowKind) (σ : TypeVar → MonoType) (tail : Option TypeVar) (only : Fields)
    (o : Option TypeVar) : Prop :=
  (tailRow k σ tail).tail = o ∧
    ∀ f, (tailRow k σ tail).get f = (only.lookup f).map (MonoType.subst σ)

/-- Each tail has the extras of the other side, so the rows are the same. -/
theorem same_of_gets {σ' : TypeVar → MonoType} {o : Option TypeVar}
    (hσ' : ∀ vs, Respects κ κ σ' vs)
    (ha : TailGets k (fun v => (σ v).subst σ') a.tail (only_fields b.to_map.1 a.to_map.1) o)
    (hb : TailGets k (fun v => (σ v).subst σ') b.tail (only_fields a.to_map.1 b.to_map.1) o) :
    (k.wrap (a.subst (fun v => (σ v).subst σ') k)).Same
      (k.wrap (b.subst (fun v => (σ v).subst σ') k)) := by
  refine rows_same (h.shared.then h.a_kinded h.b_kinded h.resolves.respects hσ') ?_ ?_ ?_
    (ha.1.trans hb.1.symm)
  · intro f t h1 h2
    rw [ha.2, lookup_only_of_none h1, h2]
    rfl
  · intro f t h1 h2
    rw [hb.2, lookup_only_of_none h1, h2]
    rfl
  · intro f h1 h2
    rw [ha.2, hb.2, lookup_only_of_none h1, lookup_only_of_none h2, h1, h2]

omit h in
theorem one_tail (hat : st.a_tail = some av) (hbt : st.b_tail = none)
    (hocc : av ∉ extra_vars st.b_only) :
    TailBinds κ k g₁ g₁ st (Substitution.singleton av (k.wrap (from_map st.b_only none))) ∧
      (Substitution.singleton av (k.wrap (from_map st.b_only none))).Ranked fun _ => 0 := by
  refine ⟨?_, singleton_ranked ?_⟩
  · intro v t hv
    obtain ⟨rfl, rfl⟩ := lookup_singleton_some hv
    exact ⟨by simp [TailStep.binds, hat, hbt], _, none, rfl, .inr rfl, by simp⟩
  · rw [free_vars_wrap, mem_free_vars_from_map, ← mem_extra_vars]
    simpa using hocc

/-- `a` has a tail, and `b` is closed. -/
theorem solve_one (hunb : st.Unbound) (hat : st.a_tail = some av) (hbt : st.b_tail = none)
    (hae : st.a_only = []) (hocc : av ∉ extra_vars st.b_only) :
    SolvedBy κ a b k g g₁ st (.singleton av (k.wrap (from_map st.b_only none))) := by
  have hav : av ∈ st.binds := by simp [TailStep.binds, hat, hbt]
  obtain ⟨hbinds, hrank⟩ := @one_tail κ g₁ k st av hat hbt hocc
  obtain ⟨σ', hσ', hY, hres⟩ := h.bind_tails hunb (le_refl _) hbinds hrank
  have hv : (Substitution.singleton av (k.wrap (from_map st.b_only none))).lookup av
      = some (k.wrap (from_map ((only_fields b.to_map.1 a.to_map.1).map
        fun p => (p.1, p.2.subst σ)) none)) := by
    rw [lookup_singleton, if_pos rfl, h.b_only]
  refine ⟨(h.tails_yield (le_refl _) hbinds hrank).1, σ', hσ', hY, _, hres,
    h.same_of_gets hσ'.respects (o := none) ?_ ?_⟩
  · rw [← h.a_tail, hat]
    exact h.tailRow_bound hσ' (h.bound_kind hav) h.b_kinded rfl (hunb av hav) hv (by simp)
  · have hnone : only_fields a.to_map.1 b.to_map.1 = [] := by
      rwa [h.a_only, List.map_eq_nil_iff] at hae
    rw [← h.b_tail, hbt, hnone]
    exact ⟨rfl, fun f => rfl⟩

end

end Prepared

section

variable {av bv r : TypeVar}

theorem lookup_twoTails {v : TypeVar} {a_only b_only : Fields} {t : MonoType}
    (h : (twoTails k av bv r a_only b_only).lookup v = some t) :
    (v = bv ∧ t = k.wrap (from_map a_only (some r))) ∨
      (v = av ∧ t = k.wrap (from_map b_only (some r))) := by
  unfold twoTails at h
  rw [Substitution.lookup_insert, Substitution.lookup_insert] at h
  split at h
  · cases h
    exact .inl ⟨by assumption, rfl⟩
  · split at h
    · cases h
      exact .inr ⟨by assumption, rfl⟩
    · cases h

theorem lookup_twoTails_right {a_only b_only : Fields} :
    (twoTails k av bv r a_only b_only).lookup bv = some (k.wrap (from_map a_only (some r))) := by
  unfold twoTails
  rw [Substitution.lookup_insert, if_pos rfl]

theorem lookup_twoTails_left {a_only b_only : Fields} (hne : av ≠ bv) :
    (twoTails k av bv r a_only b_only).lookup av = some (k.wrap (from_map b_only (some r))) := by
  unfold twoTails
  rw [Substitution.lookup_insert, Substitution.lookup_insert, if_neg hne, if_pos rfl]

/-- Both rows have a tail: the bindings have an end unless each tail leads to the
other. -/
theorem twoTails_ranked {a_only b_only : Fields} (hne : av ≠ bv)
    (hra : r ≠ av) (hrb : r ≠ bv) (hav : av ∉ extra_vars b_only)
    (hbv : bv ∉ extra_vars a_only)
    (hcr : ¬ (bv ∈ extra_vars b_only ∧ av ∈ extra_vars a_only)) :
    ∃ rank, (twoTails k av bv r a_only b_only).Ranked rank := by
  have hvars : ∀ v t u, (twoTails k av bv r a_only b_only).lookup v = some t → u ∈ t.free_vars →
      ((twoTails k av bv r a_only b_only).lookup u).isSome →
      (v = bv ∧ u = av ∧ av ∈ extra_vars a_only) ∨
        (v = av ∧ u = bv ∧ bv ∈ extra_vars b_only) := by
    intro v t u hv hu hbound
    obtain ⟨tu, htu⟩ := Option.isSome_iff_exists.mp hbound
    rcases lookup_twoTails hv with ⟨rfl, rfl⟩ | ⟨rfl, rfl⟩
    · rw [free_vars_wrap, mem_free_vars_from_map, ← mem_extra_vars] at hu
      rcases lookup_twoTails htu with ⟨rfl, -⟩ | ⟨rfl, -⟩
      · rcases hu with hu | hu
        · exact absurd hu hbv
        · exact absurd (Option.some.inj hu) hrb
      · rcases hu with hu | hu
        · exact .inl ⟨rfl, rfl, hu⟩
        · exact absurd (Option.some.inj hu) hra
    · rw [free_vars_wrap, mem_free_vars_from_map, ← mem_extra_vars] at hu
      rcases lookup_twoTails htu with ⟨rfl, -⟩ | ⟨rfl, -⟩
      · rcases hu with hu | hu
        · exact .inr ⟨rfl, rfl, hu⟩
        · exact absurd (Option.some.inj hu) hrb
      · rcases hu with hu | hu
        · exact absurd hu hav
        · exact absurd (Option.some.inj hu) hra
  -- the tail that leads on to the other one ranks above it
  by_cases hb : bv ∈ extra_vars b_only
  · refine ⟨fun v => if v = av then 1 else 0, ?_⟩
    intro v t u hv hu hbound
    rcases hvars v t u hv hu hbound with ⟨-, -, ha⟩ | ⟨rfl, rfl, -⟩
    · exact absurd ⟨hb, ha⟩ hcr
    · simp [Ne.symm hne]
  · refine ⟨fun v => if v = bv then 1 else 0, ?_⟩
    intro v t u hv hu hbound
    rcases hvars v t u hv hu hbound with ⟨rfl, rfl, -⟩ | ⟨-, -, hb'⟩
    · simp [hne]
    · exact absurd hb' hb

section

variable (h : Prepared κ a b k g g₁ st σ) (hat : st.a_tail = some av) (hbt : st.b_tail = some bv)
  (hr : g₁.next ≤ r)

include h hat hbt hr

theorem Prepared.new_tail : r ≠ av ∧ r ≠ bv :=
  ⟨Nat.ne_of_gt ((h.past av (h.tail_known (.inl hat)).2).trans_le (h.yields.le.trans hr)),
    Nat.ne_of_gt ((h.past bv (h.tail_known (.inr hbt)).2).trans_le (h.yields.le.trans hr))⟩

theorem Prepared.two_tails (hcr : st.Uncrossed) (hne : av ≠ bv) (hav : av ∉ extra_vars st.b_only)
    (hbv : bv ∉ extra_vars st.a_only) (hlt : r < g₂.next) (hkr : κ r = .row k) :
    TailBinds κ k g₁ g₂ st (twoTails k av bv r st.a_only st.b_only) ∧
      ∃ rank, (twoTails k av bv r st.a_only st.b_only).Ranked rank := by
  obtain ⟨hra, hrb⟩ := h.new_tail hat hbt hr
  refine ⟨?_, twoTails_ranked hne hra hrb hav hbv (hcr av bv hat hbt hne)⟩
  intro v t hv
  have hab : av ∈ st.binds ∧ bv ∈ st.binds := by simp [TailStep.binds, hat, hbt, hne]
  have hnew : ∀ x, some r = some x → g₁.next ≤ x ∧ x < g₂.next ∧ κ x = .row k := by
    intro x hx
    cases hx
    exact ⟨hr, hlt, hkr⟩
  rcases lookup_twoTails hv with ⟨rfl, rfl⟩ | ⟨rfl, rfl⟩
  · exact ⟨hab.2, _, _, rfl, .inl rfl, hnew⟩
  · exact ⟨hab.1, _, _, rfl, .inr rfl, hnew⟩

/-- Both rows have a tail. -/
theorem Prepared.solve_two (hcr : st.Uncrossed) (hunb : st.Unbound) (hne : av ≠ bv)
    (hav : av ∉ extra_vars st.b_only) (hbv : bv ∉ extra_vars st.a_only) (hlt : r < g₂.next)
    (hkr : κ r = .row k) :
    SolvedBy κ a b k g g₂ st (twoTails k av bv r st.a_only st.b_only) := by
  have hab : av ∈ st.binds ∧ bv ∈ st.binds := by simp [TailStep.binds, hat, hbt, hne]
  obtain ⟨hra, hrb⟩ := h.new_tail hat hbt hr
  obtain ⟨hbinds, rank, hrank⟩ := h.two_tails hat hbt hr hcr hne hav hbv hlt hkr
  have hle := hr.trans (le_of_lt hlt)
  obtain ⟨σ', hσ', hY, hres⟩ := h.bind_tails hunb hle hbinds hrank
  have hrfree : ∀ x, some r = some x →
      (twoTails k av bv r st.a_only st.b_only).lookup x = none := by
    intro x hx
    cases hx
    unfold twoTails
    rw [Substitution.lookup_insert, Substitution.lookup_insert, if_neg hrb, if_neg hra]
    rfl
  refine ⟨(h.tails_yield hle hbinds hrank).1, σ', hσ', hY, _, hres,
    h.same_of_gets hσ'.respects (o := some r) ?_ ?_⟩
  · rw [← h.a_tail, hat]
    exact h.tailRow_bound hσ' (h.bound_kind hab.1) h.b_kinded rfl (hunb av hab.1)
      (by rw [lookup_twoTails_left hne, h.b_only]) hrfree
  · rw [← h.b_tail, hbt]
    exact h.tailRow_bound hσ' (h.bound_kind hab.2) h.a_kinded rfl (hunb bv hab.2)
      (by rw [lookup_twoTails_right, h.a_only]) hrfree

end

end

end

end paideia_as_shell_hm
