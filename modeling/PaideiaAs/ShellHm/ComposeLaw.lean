-- The law of `compose`: first one substitution, then the other. Where the
-- bindings keep the kinds of their variables and `apply` comes back, the law
-- holds exactly when the bindings that `compose` takes say what the two
-- substitutions say one after the other.
import PaideiaAs.ShellHm.Resolve

open Assoc

namespace paideia_as_shell_hm

open RowType
open RowKind (kinded_wrap splice_var splice_wrap subst_wrap wrap_inj)
open RowType (walk_bound walk_other)
open Outcome (bind_eq_ok)
open Except (ok)

variable {κ : TypeVar → Kind} {s s₁ s₂ s₃ : Substitution} {n m : Nat}

/-! ## More fuel -/

section

variable {again again' : RowKind → RowType → Outcome RowType}

theorem walk_again (hagain : ∀ k r r', again k r = .ok r' → again' k r = .ok r') :
    WalkRule s again (fun t t' => t.walk s again' = .ok t')
      (fun k r r' => r.walk s again' k = .ok r') where
  var _ := rfl
  con _ := rfl
  arrow ha hb := by
    rw [MonoType.walk, ha, hb]
    rfl
  record hr := by
    rw [MonoType.walk, hr]
    rfl
  effect hr := by
    rw [MonoType.walk, hr]
    rfl
  typed hx he := by
    rw [MonoType.walk, hx, he]
    rfl
  empty _ := rfl
  bound hb hr := (walk_bound hb).trans (hagain _ _ _ hr)
  other hb := walk_other hb
  extend hty hrest := by
    rw [RowType.walk, hty, hrest]
    rfl

namespace Substitution

theorem apply_rows_mono (hnm : n ≤ m) (k : RowKind) (r r' : RowType)
    (h : s.apply_rows n k r = .ok r') : s.apply_rows m k r = .ok r' := by
  induction n generalizing m k r r' with
  | zero => cases h
  | succ n ih =>
    obtain ⟨m, rfl⟩ : ∃ j, m = j + 1 := ⟨m - 1, by omega⟩
    exact (walk_again fun k r r' => ih (by omega) k r r').row r k h

variable {t t' : MonoType} {k : RowKind}

theorem apply_mono (hnm : n ≤ m) (h : s.apply n t = .ok t') : s.apply m t = .ok t' :=
  (walk_again (apply_rows_mono hnm)).type t h

theorem compose_entries_mono (hnm : n ≤ m) {es out : List (TypeVar × MonoType)}
    (h : (es.mapM fun e => do let ty ← s.apply n e.2; return (e.1, ty)) = .ok out) :
    (es.mapM fun e => do let ty ← s.apply m e.2; return (e.1, ty)) = .ok out := by
  induction es generalizing out with
  | nil => exact h
  | cons e es ih =>
    simp only [List.mapM_cons, bind_eq_ok] at h ⊢
    obtain ⟨a, ⟨ty, hty, ha⟩, out', hout', ho⟩ := h
    exact ⟨a, ⟨ty, apply_mono hnm hty, ha⟩, out', ih hout', ho⟩

theorem compose_mono (hnm : n ≤ m) (h : s₁.compose n s₂ = .ok s) : s₁.compose m s₂ = .ok s := by
  unfold compose at h ⊢
  rw [bind_eq_ok] at h ⊢
  obtain ⟨out, hout, hs⟩ := h
  exact ⟨out, compose_entries_mono hnm hout, hs⟩

/-! ## What a call comes back with -/

/-- `apply` comes back with `t'`. -/
def Gives (s : Substitution) (t t' : MonoType) : Prop := ∃ n, s.apply n t = .ok t'

/-- `s₁.apply(&s₂.apply(t))` comes back with `t'`. -/
def GivesAfter (s₁ s₂ : Substitution) (t t' : MonoType) : Prop :=
  ∃ u, s₂.Gives t u ∧ s₁.Gives u t'

/-- `s₁.compose(&s₂).apply(t)` comes back with `t'`. -/
def ComposeGives (s₁ s₂ : Substitution) (t t' : MonoType) : Prop :=
  ∃ n s, s₁.compose n s₂ = .ok s ∧ s.Gives t t'

theorem Gives.unique {a b : MonoType} (ha : s.Gives t a) (hb : s.Gives t b) : a = b := by
  obtain ⟨n, ha⟩ := ha
  obtain ⟨m, hb⟩ := hb
  have h := apply_mono (Nat.le_max_left n m) ha
  rw [apply_mono (Nat.le_max_right n m) hb] at h
  exact (ok.inj h).symm

theorem GivesAfter.unique {a b : MonoType} (ha : s₁.GivesAfter s₂ t a)
    (hb : s₁.GivesAfter s₂ t b) : a = b := by
  obtain ⟨u, hu, ha⟩ := ha
  obtain ⟨w, hw, hb⟩ := hb
  rw [hu.unique hw] at ha
  exact ha.unique hb

theorem composed_unique (h : s₁.compose n s₂ = .ok s) (h' : s₁.compose m s₂ = .ok s₃) : s = s₃ := by
  have hs := compose_mono (Nat.le_max_left n m) h
  rw [compose_mono (Nat.le_max_right n m) h'] at hs
  exact (ok.inj hs).symm

theorem gives_var (s : Substitution) (v : TypeVar) :
    s.Gives (.Var v) ((s.lookup v).getD (.Var v)) := ⟨0, rfl⟩

theorem gives_wrap {r : RowType} :
    s.Gives (k.wrap r) t' ↔ ∃ n r', s.apply_rows n k r = .ok r' ∧ t' = k.wrap r' := by
  have hwrap : ∀ n, s.apply n (k.wrap r) = .ok t' ↔
      ∃ r', s.apply_rows (n + 1) k r = .ok r' ∧ t' = k.wrap r' := by
    intro n
    have hpure : ∀ a b : MonoType, (pure a : Outcome MonoType) = .ok b ↔ b = a := by
      intro a b
      exact ⟨fun h => (ok.inj h).symm, fun h => by rw [h]; rfl⟩
    cases k <;> exact bind_eq_ok.trans (exists_congr fun r' => and_congr Iff.rfl (hpure _ _))
  refine ⟨?_, ?_⟩
  · rintro ⟨n, h⟩
    exact ⟨n + 1, (hwrap n).mp h⟩
  · rintro ⟨n, r', hr, ht⟩
    rcases n with _ | n
    · cases hr
    · exact ⟨n, (hwrap n).mpr ⟨r', hr, ht⟩⟩

/-- A tail with a row behind it becomes what that row becomes. -/
theorem gives_behind {v : TypeVar} {next : RowType} (hb : s.lookup v = some (k.wrap next)) :
    s.Gives (k.wrap (.RowVar v)) t' ↔ s.Gives (k.wrap next) t' := by
  rw [gives_wrap, gives_wrap]
  refine ⟨?_, ?_⟩
  · rintro ⟨n, r', hr, ht⟩
    rcases n with _ | n
    · cases hr
    · exact ⟨n, r', (walk_bound hb).symm.trans hr, ht⟩
  · rintro ⟨n, r', hr, ht⟩
    exact ⟨n + 1, r', (walk_bound hb).trans hr, ht⟩

theorem gives_leaf {v : TypeVar} (hb : ∀ next, s.lookup v ≠ some (k.wrap next)) :
    s.Gives (k.wrap (.RowVar v)) (k.wrap (k.splice v ((s.lookup v).getD (.Var v)))) :=
  gives_wrap.mpr ⟨1, _, walk_other hb, rfl⟩

end Substitution

end

/-! ## What a substitution does to every type -/

mutual

theorem MonoType.tail_iff {j : RowKind} {u : TypeVar} (t : MonoType) (ht : t.Kinded κ) :
    t.Tail j u ↔ u ∈ t.free_vars ∧ κ u = .row j := by
  match t with
  | .Var v =>
    simp only [MonoType.Kinded] at ht
    simp only [MonoType.Tail, MonoType.free_vars, List.mem_singleton, false_iff, not_and]
    rintro rfl
    simp [ht]
  | .Con _ => simp [MonoType.Tail, MonoType.free_vars]
  | .Arrow a b =>
    simp only [MonoType.Tail, MonoType.free_vars, List.mem_append, or_and_right,
      a.tail_iff ht.1, b.tail_iff ht.2]
  | .Record row =>
    simp only [MonoType.Tail, MonoType.free_vars, row.tail_iff .record ht]
  | .EffectRow row =>
    simp only [MonoType.Tail, MonoType.free_vars, row.tail_iff .effect ht.2]
  | .Typed x e =>
    simp only [MonoType.Tail, MonoType.free_vars, List.mem_append, or_and_right,
      x.tail_iff .record ht.1, e.tail_iff .effect ht.2.2]

theorem RowType.tail_iff {j : RowKind} {u : TypeVar} (r : RowType) (k : RowKind)
    (hr : r.Kinded κ k) : r.Tail j u k ↔ u ∈ r.free_vars ∧ κ u = .row j := by
  match r with
  | .Empty => simp [RowType.Tail, RowType.free_vars]
  | .RowVar v =>
    simp only [RowType.Kinded] at hr
    simp only [RowType.Tail, RowType.free_vars, List.mem_singleton, eq_comm (a := v)]
    refine and_congr_right ?_
    rintro rfl
    simp [hr]
  | .Extend _ ty rest =>
    simp only [RowType.Tail, RowType.free_vars, List.mem_append, or_and_right,
      ty.tail_iff hr.1, rest.tail_iff k hr.2]

end

namespace Substitution

/-- Each binding fits the kind of its variable. -/
def KeepsKinds (κ : TypeVar → Kind) (s : Substitution) : Prop :=
  ∀ e ∈ s.entries, (κ e.1).Fits κ e.2

/-- `apply` comes back from every type. -/
def Returns (κ : TypeVar → Kind) (s : Substitution) : Prop :=
  ∀ t, t.Kinded κ → ∃ t', s.Gives t t'

/-- `apply` puts in `σ`. -/
structure Acts (κ : TypeVar → Kind) (s : Substitution) (σ : TypeVar → MonoType) : Prop where
  gives : ∀ t, t.Kinded κ → s.Gives t (t.subst σ)
  fits : ∀ v, (κ v).Fits κ (σ v)

/-- Each variable is bound to a type of its kind. -/
def Fitting (κ : TypeVar → Kind) (s : Substitution) : Prop :=
  ∀ v t, s.lookup v = some t → (κ v).Fits κ t

theorem KeepsKinds.fitting (h : KeepsKinds κ s) : Fitting κ s := fun v t hv =>
  h (v, t) (mem_of_lookup hv)

theorem KeepsKinds.getD (h : KeepsKinds κ s) (v : TypeVar) :
    (κ v).Fits κ ((s.lookup v).getD (.Var v)) := by
  rcases hv : s.lookup v with _ | t
  · exact Respects.self [v] v (by simp)
  · exact h.fitting v t hv

theorem fits_wrap {k : RowKind} {r : RowType} :
    (Kind.row k).Fits κ (k.wrap r) ↔ k.Shaped r ∧ r.Kinded κ k := by
  refine ⟨?_, fun h => .inr ⟨r, rfl, h⟩⟩
  rintro (⟨w, hw, -⟩ | ⟨r', hr', h⟩)
  · cases k <;> cases hw
  · rwa [wrap_inj hr']

theorem Fitting.next (h : Fitting κ s) {v : TypeVar} {k : RowKind} {next : RowType}
    (hk : κ v = .row k) (hb : s.lookup v = some (k.wrap next)) :
    k.Shaped next ∧ next.Kinded κ k := by
  have hf := h v _ hb
  rw [hk] at hf
  exact fits_wrap.mp hf

theorem tail_kinded {v : TypeVar} {k : RowKind} (hk : κ v = .row k) :
    (k.wrap (.RowVar v)).Kinded κ := kinded_wrap.mpr ⟨fun _ => trivial, hk⟩

/-- `σ` gives each variable what `s` makes of it on its own. -/
structure Reaches (κ : TypeVar → Kind) (s : Substitution) (σ : TypeVar → MonoType) : Prop where
  behind : ∀ v k next, κ v = .row k → s.lookup v = some (k.wrap next) →
    ∃ n r', s.apply_rows n k next = .ok r' ∧ σ v = k.wrap r'
  leaf : ∀ v, (∀ k next, κ v = .row k → s.lookup v ≠ some (k.wrap next)) →
    σ v = (s.lookup v).getD (.Var v)

theorem Returns.exists_reaches (hret : s.Returns κ) : ∃ σ, s.Reaches κ σ := by
  have hone : ∀ v, ∃ t, (∀ k next, κ v = .row k → s.lookup v = some (k.wrap next) →
      ∃ n r', s.apply_rows n k next = .ok r' ∧ t = k.wrap r') ∧
      ((∀ k next, κ v = .row k → s.lookup v ≠ some (k.wrap next)) →
        t = (s.lookup v).getD (.Var v)) := by
    intro v
    by_cases hb : ∃ k next, κ v = .row k ∧ s.lookup v = some (k.wrap next)
    · obtain ⟨k, next, hk, hb⟩ := hb
      obtain ⟨t, ht⟩ := hret _ (tail_kinded hk)
      obtain ⟨n, r', hr, rfl⟩ := gives_wrap.mp ((gives_behind hb).mp ht)
      refine ⟨k.wrap r', ?_, fun hno => absurd hb (hno k next hk)⟩
      intro j next' hj hb'
      cases hk.symm.trans hj
      rw [hb] at hb'
      rw [← wrap_inj (Option.some.inj hb')]
      exact ⟨n, r', hr, rfl⟩
    · refine ⟨_, ?_, fun _ => rfl⟩
      intro k next hk hb'
      exact absurd ⟨k, next, hk, hb'⟩ hb
  choose σ hσ using hone
  exact ⟨σ, fun v => (hσ v).1, fun v => (hσ v).2⟩

namespace Reaches

variable {σ : TypeVar → MonoType}

theorem leaves (hσ : s.Reaches κ σ) : s.Leaves κ σ := by
  refine ⟨?_, ?_⟩
  · intro v hk
    refine hσ.leaf v ?_
    intro k next hk'
    rw [hk] at hk'
    cases hk'
  · intro v k hk hb
    rw [hσ.leaf v]
    intro j next hj
    cases hk.symm.trans hj
    exact hb next

theorem follows (hσ : s.Reaches κ σ) (n : Nat) : s.Follows κ (s.apply_rows n) σ := by
  intro v k next r' hk hb hr
  obtain ⟨m, r'', hr'', hv⟩ := hσ.behind v k next hk hb
  rw [hv, splice_wrap]
  have h := apply_rows_mono (Nat.le_max_left n m) k next r' hr
  rw [apply_rows_mono (Nat.le_max_right n m) k next r'' hr''] at h
  exact ok.inj h

theorem leaf_fits (h : KeepsKinds κ s) (hσ : s.Reaches κ σ) {v : TypeVar}
    (hno : ∀ k next, κ v = .row k → s.lookup v ≠ some (k.wrap next)) : (κ v).Fits κ (σ v) := by
  rw [hσ.leaf v hno]
  exact h.getD v

theorem row_fits (h : KeepsKinds κ s) (hσ : s.Reaches κ σ) (n : Nat) (k : RowKind)
    (r r' : RowType) (hs : k.Shaped r) (hr : r.Kinded κ k) (hn : s.apply_rows n k r = .ok r') :
    (Kind.row k).Fits κ (k.wrap r') := by
  induction n generalizing k r r' with
  | zero => cases hn
  | succ n ih =>
    have hresp : Respects κ κ σ r.free_vars := by
      intro u hu
      by_cases hb : ∃ j next, κ u = .row j ∧ s.lookup u = some (j.wrap next)
      · obtain ⟨j, next, hj, hb⟩ := hb
        obtain ⟨hshape, hnext⟩ := h.fitting.next hj hb
        -- the walk has entered the row behind `u`
        have hin := (r.walk_ends_iff k).mp ⟨r', hn⟩
        obtain ⟨r'', hr''⟩ := hin j u next ((r.tail_iff k hr).mpr ⟨hu, hj⟩) hb
        have hfit := ih j next r'' hshape hnext hr''
        obtain ⟨m, q, hq, hv⟩ := hσ.behind u j next hj hb
        rw [hσ.follows n u j next r'' hj hb hr'' |>.symm, hv, splice_wrap] at hfit
        rw [hj, hv]
        exact hfit
      · exact hσ.leaf_fits h fun j next hj hb' => hb ⟨j, next, hj, hb'⟩
    obtain ⟨hr', hs', -⟩ := r.kinded_subst k hr hs hresp
    rw [(walk_substitutes hσ.leaves (hσ.follows n)).row r k hn hr]
    exact fits_wrap.mpr ⟨hs', hr'⟩

theorem acts (h : KeepsKinds κ s) (hret : s.Returns κ) (hσ : s.Reaches κ σ) : s.Acts κ σ := by
  refine ⟨?_, ?_⟩
  · intro t ht
    obtain ⟨t', n, hn⟩ := hret t ht
    rw [← (walk_substitutes hσ.leaves (hσ.follows n)).type t hn ht]
    exact ⟨n, hn⟩
  · intro v
    by_cases hb : ∃ k next, κ v = .row k ∧ s.lookup v = some (k.wrap next)
    · obtain ⟨k, next, hk, hb⟩ := hb
      obtain ⟨hshape, hnext⟩ := h.fitting.next hk hb
      obtain ⟨n, r', hr, hv⟩ := hσ.behind v k next hk hb
      rw [hk, hv]
      exact hσ.row_fits h n k next r' hshape hnext hr
    · exact hσ.leaf_fits h fun k next hk hb' => hb ⟨k, next, hk, hb'⟩

end Reaches

theorem KeepsKinds.exists_acts (h : KeepsKinds κ s) (hret : s.Returns κ) : ∃ σ, s.Acts κ σ := by
  obtain ⟨σ, hσ⟩ := hret.exists_reaches
  exact ⟨σ, hσ.acts h hret⟩

/-! ## One substitution after another -/

section

variable {σ₁ σ₂ : TypeVar → MonoType} {t b : MonoType} {v : TypeVar}

theorem Acts.gives_after (h₁ : s₁.Acts κ σ₁) (h₂ : s₂.Acts κ σ₂) (ht : t.Kinded κ) :
    s₁.GivesAfter s₂ t (t.subst fun v => (σ₂ v).subst σ₁) := by
  have hmid := (t.kinded_subst ht fun v _ => h₂.fits v).1
  refine ⟨t.subst σ₂, h₂.gives t ht, ?_⟩
  rw [← t.subst_subst ht (fun v _ => h₂.fits v) fun v _ u _ => h₁.fits u]
  exact h₁.gives _ hmid

theorem Acts.after_eq (h₁ : s₁.Acts κ σ₁) (h₂ : s₂.Acts κ σ₂) {t' : MonoType}
    (ht : t.Kinded κ) (h : s₁.GivesAfter s₂ t t') : t' = t.subst fun v => (σ₂ v).subst σ₁ :=
  h.unique (h₁.gives_after h₂ ht)

theorem subst_tail (σ : TypeVar → MonoType) (k : RowKind) (v : TypeVar) :
    (k.wrap (.RowVar v)).subst σ = k.wrap (k.splice v (σ v)) := subst_wrap k _

/-- `compose` binds `v` to `b`: the binding of `s₁`, or else what `s₁` makes of
the binding of `s₂`. -/
def Takes (s₁ s₂ : Substitution) (v : TypeVar) (b : MonoType) : Prop :=
  s₁.lookup v = some b ∨ s₁.lookup v = none ∧ ∃ t, s₂.lookup v = some t ∧ s₁.Gives t b

theorem lookup_iff_takes (h : s₁.compose n s₂ = .ok s) : s.lookup v = some b ↔ s₁.Takes s₂ v b := by
  unfold Takes
  rcases lookup_compose h v with ⟨t, h1, h3⟩ | ⟨h1, h2, h3⟩ | ⟨t, t', h1, h2, ht, h3⟩
  · simp [h1, h3]
  · simp [h1, h2, h3]
  · rw [h1, h2, h3]
    refine ⟨?_, ?_⟩
    · rintro ⟨⟩
      exact .inr ⟨rfl, t, rfl, n, ht⟩
    · rintro (hb | ⟨-, u, hu, hb⟩)
      · cases hb
      · cases hu
        rw [hb.unique ⟨n, ht⟩]

theorem unbound_of_compose (h : s₁.compose n s₂ = .ok s) (hv : s.lookup v = none) :
    s₁.lookup v = none ∧ s₂.lookup v = none := by
  rcases lookup_compose h v with ⟨t, h1, h3⟩ | ⟨h1, h2, -⟩ | ⟨t, t', h1, h2, ht, h3⟩
  · rw [h3] at hv
    cases hv
  · exact ⟨h1, h2⟩
  · rw [h3] at hv
    cases hv

/-- What `s₁` makes of a binding that fits fits as well. -/
theorem Acts.gives_fit (hk₁ : KeepsKinds κ s₁) (h₁ : s₁.Acts κ σ₁) {j : Kind} (ht : j.Fits κ t)
    (hb : s₁.Gives t b) : j.Fits κ b := by
  have hkinded : t.Kinded κ → j.Fits κ b := by
    intro hk
    rw [hb.unique (h₁.gives t hk)]
    exact (ht.subst fun v _ => h₁.fits v).1
  rcases j with _ | k
  · exact hkinded ht
  · rcases ht with ⟨w, rfl, hw⟩ | ⟨r, rfl, hr⟩
    · rw [hb.unique (s₁.gives_var w), ← hw]
      exact hk₁.getD w
    · exact hkinded (kinded_wrap.mpr hr)

theorem Takes.fits (hk₁ : KeepsKinds κ s₁) (hk₂ : KeepsKinds κ s₂) (h₁ : s₁.Acts κ σ₁)
    (hb : s₁.Takes s₂ v b) : (κ v).Fits κ b := by
  obtain hb | ⟨-, t, ht, hb⟩ := hb
  · exact hk₁.fitting v b hb
  · exact h₁.gives_fit hk₁ (hk₂.fitting v t ht) hb

theorem exists_compose (hk₂ : KeepsKinds κ s₂) (h₁ : s₁.Acts κ σ₁) :
    ∃ n s, s₁.compose n s₂ = .ok s := by
  have hone : ∀ e ∈ s₂.entries, ∃ t', s₁.Gives e.2 t' := by
    intro e he
    have hfit := hk₂ e he
    rcases hj : κ e.1 with _ | k
    · rw [hj] at hfit
      exact ⟨_, h₁.gives _ hfit⟩
    · rw [hj] at hfit
      rcases hfit with ⟨w, hw, -⟩ | ⟨r, hr, hk⟩
      · rw [hw]
        exact ⟨_, s₁.gives_var w⟩
      · rw [hr]
        exact ⟨_, h₁.gives _ (kinded_wrap.mpr hk)⟩
  have hall : ∀ es : List (TypeVar × MonoType), (∀ e ∈ es, ∃ t', s₁.Gives e.2 t') →
      ∃ n out, (es.mapM fun e => do let ty ← s₁.apply n e.2; return (e.1, ty)) =
        (.ok out : Outcome _) := by
    intro es hes
    induction es with
    | nil => exact ⟨0, [], rfl⟩
    | cons e es ih =>
      obtain ⟨t', n, hn⟩ := hes e (.head _)
      obtain ⟨m, out, hm⟩ := ih fun d hd => hes d (.tail _ hd)
      refine ⟨max n m, (e.1, t') :: out, ?_⟩
      rw [List.mapM_cons, apply_mono (Nat.le_max_left n m) hn,
        compose_entries_mono (Nat.le_max_right n m) hm]
      rfl
  obtain ⟨n, out, hout⟩ := hall s₂.entries hone
  exact ⟨n, _, by unfold compose; rw [hout]; rfl⟩

/-! ## The law -/

/-- The law of `compose`: it does first `s₂` and then `s₁`. -/
def ComposeLaw (κ : TypeVar → Kind) (s₁ s₂ : Substitution) : Prop :=
  ∀ t, t.Kinded κ → ∃ t', s₁.GivesAfter s₂ t t' ∧ s₁.ComposeGives s₂ t t'

/-- The bindings that `compose` takes, read once more, say what `s₂` and then
`s₁` say. -/
structure Concord (κ : TypeVar → Kind) (s₁ s₂ : Substitution) : Prop where
  /-- Of a type variable bound twice, `s₁` says the same as of its binding. -/
  types : ∀ v t₁ t₂, κ v = .type → s₁.lookup v = some t₁ → s₂.lookup v = some t₂ → s₁.Gives t₂ t₁
  /-- A row that is taken for a tail becomes what the tail becomes. -/
  rows : ∀ v k next, κ v = .row k → s₁.Takes s₂ v (k.wrap next) →
    ∃ t', s₁.GivesAfter s₂ (k.wrap next) t' ∧ s₁.GivesAfter s₂ (k.wrap (.RowVar v)) t'
  /-- A tail that is taken for a tail is what the tail becomes. -/
  links : ∀ v k w, κ v = .row k → s₁.Takes s₂ v (.Var w) →
    s₁.GivesAfter s₂ (k.wrap (.RowVar v)) (k.wrap (.RowVar w))
  /-- No row leads back to itself. -/
  ranked : ∃ rank : TypeVar → Nat, ∀ v k next j u next', κ v = .row k →
    s₁.Takes s₂ v (k.wrap next) → next.Tail j u k → s₁.Takes s₂ u (j.wrap next') → rank u < rank v

/-- With `rank` the walk ends on every row. -/
theorem apply_rows_ends {rank : TypeVar → Nat} (hk : Fitting κ s)
    (hrank : ∀ v k next j u next', κ v = .row k → s.lookup v = some (k.wrap next) →
      next.Tail j u k → s.lookup u = some (j.wrap next') → rank u < rank v)
    (n : Nat) (k : RowKind) (r : RowType) (hr : r.Kinded κ k)
    (hn : ∀ j u next, r.Tail j u k → s.lookup u = some (j.wrap next) → rank u < n) :
    ∃ r', s.apply_rows (n + 1) k r = .ok r' := by
  induction n generalizing k r with
  | zero =>
    refine (r.walk_ends_iff k).mpr ?_
    intro j u next hu hb
    exact absurd (hn j u next hu hb) (Nat.not_lt_zero _)
  | succ n ih =>
    refine (r.walk_ends_iff k).mpr ?_
    intro j u next hu hb
    have hj := ((r.tail_iff k hr).mp hu).2
    refine ih j next (hk.next hj hb).2 ?_
    intro i w next' hw hb'
    have hwu := hrank u j next i w next' hj hb hw hb'
    have hun := hn j u next hu hb
    omega

theorem composed_fitting (hk₁ : KeepsKinds κ s₁) (hk₂ : KeepsKinds κ s₂) (h₁ : s₁.Acts κ σ₁)
    (hc : s₁.compose n s₂ = .ok s) : Fitting κ s := fun _ _ hv =>
  Takes.fits hk₁ hk₂ h₁ ((lookup_iff_takes hc).mp hv)

theorem Concord.apply_ends (hcon : Concord κ s₁ s₂) (hk₁ : KeepsKinds κ s₁) (hk₂ : KeepsKinds κ s₂)
    (h₁ : s₁.Acts κ σ₁) (hc : s₁.compose n s₂ = .ok s) (t : MonoType) (ht : t.Kinded κ) :
    ∃ t', s.Gives t t' := by
  obtain ⟨rank, hrank⟩ := hcon.ranked
  obtain ⟨M, hM⟩ := s.exists_bound rank
  have hfit := composed_fitting hk₁ hk₂ h₁ hc
  have hdown : ∀ v k next j u next', κ v = .row k → s.lookup v = some (k.wrap next) →
      next.Tail j u k → s.lookup u = some (j.wrap next') → rank u < rank v := by
    intro v k next j u next' hk hv hu hb
    exact hrank v k next j u next' hk ((lookup_iff_takes hc).mp hv) hu ((lookup_iff_takes hc).mp hb)
  obtain ⟨t', hn⟩ : ∃ t', s.apply (M + 1) t = .ok t' := by
    refine t.walk_ends_iff.mpr ?_
    intro j v next hv hb
    have hj := ((t.tail_iff ht).mp hv).2
    refine apply_rows_ends hfit hdown M j next (hfit.next hj hb).2 ?_
    intro i u next' _ hu
    exact hM u (by simp [hu])
  exact ⟨t', M + 1, hn⟩

section

variable (hk₁ : KeepsKinds κ s₁) (hk₂ : KeepsKinds κ s₂) (h₁ : s₁.Acts κ σ₁) (h₂ : s₂.Acts κ σ₂)
  (hc : s₁.compose n s₂ = .ok s)
include hk₁ hk₂ h₁ h₂ hc

/-- Where the bindings are in concord, the two substitutions are as the
composition on all that has no row behind it. -/
theorem Concord.leaves (hcon : Concord κ s₁ s₂) : s.Leaves κ fun v => (σ₂ v).subst σ₁ := by
  refine ⟨?_, ?_⟩
  · intro v hk
    have hv : (MonoType.Var v).Kinded κ := hk
    refine (h₁.after_eq h₂ hv ?_).symm
    refine ⟨_, s₂.gives_var v, ?_⟩
    rcases hs : s.lookup v with _ | b
    · obtain ⟨hs₁, hs₂⟩ := unbound_of_compose hc hs
      rw [hs₂]
      simpa [hs₁] using s₁.gives_var v
    · obtain hb | ⟨hs₁, t, ht, hb⟩ := (lookup_iff_takes hc).mp hs
      · rcases hs₂ : s₂.lookup v with _ | t
        · simpa [hb] using s₁.gives_var v
        · exact hcon.types v b t hk hb hs₂
      · rw [ht]
        exact hb
  · intro v k hk hno
    suffices hg : s₁.GivesAfter s₂ (k.wrap (.RowVar v))
        (k.wrap (k.splice v ((s.lookup v).getD (.Var v)))) by
      have heq := h₁.after_eq h₂ (tail_kinded hk) hg
      rw [subst_tail] at heq
      exact (wrap_inj heq).symm
    rcases hs : s.lookup v with _ | b
    · obtain ⟨hs₁, hs₂⟩ := unbound_of_compose hc hs
      have hleaf₁ := gives_leaf (k := k) (v := v) (s := s₁) (by simp [hs₁])
      have hleaf₂ := gives_leaf (k := k) (v := v) (s := s₂) (by simp [hs₂])
      rw [hs₁] at hleaf₁
      rw [hs₂] at hleaf₂
      simp only [Option.getD_none, splice_var] at hleaf₁ hleaf₂ ⊢
      exact ⟨_, hleaf₂, hleaf₁⟩
    · have hfit := composed_fitting hk₁ hk₂ h₁ hc v b hs
      rw [hk] at hfit
      obtain ⟨w, rfl, -⟩ | ⟨r, rfl, -⟩ := hfit
      · rw [Option.getD_some, splice_var]
        exact hcon.links v k w hk ((lookup_iff_takes hc).mp hs)
      · exact absurd hs (hno r)

theorem Concord.row_behind (hcon : Concord κ s₁ s₂) (v : TypeVar) (k : RowKind) (next : RowType)
    (hk : κ v = .row k) (hb : s.lookup v = some (k.wrap next)) :
    next.Kinded κ k ∧ k.splice v ((σ₂ v).subst σ₁) =
      next.subst (fun v => (σ₂ v).subst σ₁) k := by
  have hnext := (composed_fitting hk₁ hk₂ h₁ hc).next hk hb
  refine ⟨hnext.2, ?_⟩
  obtain ⟨t', hn, ht⟩ := hcon.rows v k next hk ((lookup_iff_takes hc).mp hb)
  have hrow := h₁.after_eq h₂ (kinded_wrap.mpr hnext) hn
  have htail := h₁.after_eq h₂ (tail_kinded hk) ht
  rw [hrow, subst_wrap, subst_tail] at htail
  exact (wrap_inj htail).symm

/-- The composition does `s₂` and then `s₁`. -/
theorem Concord.composed_gives (hcon : Concord κ s₁ s₂) (t : MonoType) (ht : t.Kinded κ) :
    s.Gives t (t.subst fun v => (σ₂ v).subst σ₁) := by
  obtain ⟨t', m, hm⟩ := hcon.apply_ends hk₁ hk₂ h₁ hc t ht
  have hleaves := hcon.leaves hk₁ hk₂ h₁ h₂ hc
  have hfollows := hleaves.follows (hcon.row_behind hk₁ hk₂ h₁ h₂ hc) m
  rw [← (walk_substitutes hleaves hfollows).type t hm ht]
  exact ⟨m, hm⟩

end

/-! ### From the law back to the bindings -/

/-- The fuel with which the walk first comes back from a tail ranks the rows. -/
theorem exists_rank (hret : s.Returns κ) :
    ∃ rank : TypeVar → Nat, ∀ v k next j u next', κ v = .row k →
      s.lookup v = some (k.wrap next) → next.Kinded κ k → next.Tail j u k →
      s.lookup u = some (j.wrap next') → rank u < rank v := by
  classical
  have hback : ∀ v, ∃ n, ∀ k, κ v = .row k → ∃ r', s.apply_rows n k (.RowVar v) = .ok r' := by
    intro v
    rcases hk : κ v with _ | k
    · exact ⟨0, fun k h => by cases h⟩
    · obtain ⟨t', ht⟩ := hret _ (tail_kinded hk)
      obtain ⟨n, r', hr, -⟩ := gives_wrap.mp ht
      refine ⟨n, ?_⟩
      rintro j ⟨⟩
      exact ⟨r', hr⟩
  refine ⟨fun v => Nat.find (hback v), ?_⟩
  intro v k next j u next' hk hv hnext hu hb
  obtain ⟨r', hr⟩ := Nat.find_spec (hback v) k hk
  show Nat.find (hback u) < Nat.find (hback v)
  generalize hn : Nat.find (hback v) = n at hr ⊢
  have hj := ((next.tail_iff k hnext).mp hu).2
  -- the walk enters the row behind `v` with one less, and from there the row behind `u`
  rcases n with _ | _ | n
  · cases hr
  · exact nomatch (walk_bound hv).symm.trans hr
  · have hin := (next.walk_ends_iff k).mp ⟨r', (walk_bound hv).symm.trans hr⟩
    obtain ⟨r'', hr''⟩ := hin j u next' hu hb
    refine lt_of_le_of_lt (Nat.find_min' (hback u) (m := n + 1) ?_) (Nat.lt_succ_self _)
    intro i hi
    cases hj.symm.trans hi
    exact ⟨r'', (walk_bound hb).trans hr''⟩

theorem Concord.of_law (hk₁ : KeepsKinds κ s₁) (hk₂ : KeepsKinds κ s₂) (h₁ : s₁.Acts κ σ₁)
    (hlaw : ComposeLaw κ s₁ s₂) : Concord κ s₁ s₂ := by
  obtain ⟨n, s, hc⟩ := exists_compose hk₂ h₁
  have hfit := composed_fitting hk₁ hk₂ h₁ hc
  have hsame : ∀ t t', t.Kinded κ → s.Gives t t' → s₁.GivesAfter s₂ t t' := by
    intro t t' ht hs
    obtain ⟨u, hu, m, s', hc', hs'⟩ := hlaw t ht
    obtain rfl := composed_unique hc' hc
    rwa [hs.unique hs']
  refine ⟨?_, ?_, ?_, ?_⟩
  · intro v t₁ t₂ hk hv₁ hv₂
    have hs : s.lookup v = some t₁ := (lookup_iff_takes hc).mpr (.inl hv₁)
    have hgives := s.gives_var v
    rw [hs] at hgives
    obtain ⟨u, hu, hu'⟩ := hsame (.Var v) t₁ hk hgives
    have hv := s₂.gives_var v
    rw [hv₂] at hv
    rwa [hu.unique hv] at hu'
  · intro v k next hk hb
    have hs := (lookup_iff_takes hc).mpr hb
    have hnext := kinded_wrap.mpr (hfit.next hk hs)
    obtain ⟨t', -, m, s', hc', hs'⟩ := hlaw _ hnext
    obtain rfl := composed_unique hc' hc
    exact ⟨t', hsame _ t' hnext hs', hsame _ t' (tail_kinded hk) ((gives_behind hs).mpr hs')⟩
  · intro v k w hk hb
    have hs := (lookup_iff_takes hc).mpr hb
    refine hsame _ _ (tail_kinded hk) ?_
    have hleaf := gives_leaf (k := k) (v := v) (s := s) (by rw [hs]; cases k <;> simp)
    rw [hs, Option.getD_some, splice_var] at hleaf
    exact hleaf
  · have hret : s.Returns κ := by
      intro t ht
      obtain ⟨t', -, m, s', hc', hs'⟩ := hlaw t ht
      obtain rfl := composed_unique hc' hc
      exact ⟨t', hs'⟩
    obtain ⟨rank, hrank⟩ := exists_rank hret
    refine ⟨rank, ?_⟩
    intro v k next j u next' hk hv hu hb
    have hv' := (lookup_iff_takes hc).mpr hv
    exact hrank v k next j u next' hk hv' (hfit.next hk hv').2 hu ((lookup_iff_takes hc).mpr hb)

end

/-- The law of `compose` holds exactly where the bindings are in concord. -/
theorem compose_law_iff (κ : TypeVar → Kind) (s₁ s₂ : Substitution) (hk₁ : s₁.KeepsKinds κ)
    (hk₂ : s₂.KeepsKinds κ) (h₁ : s₁.Returns κ) (h₂ : s₂.Returns κ) :
    s₁.ComposeLaw κ s₂ ↔ s₁.Concord κ s₂ := by
  obtain ⟨σ₁, hσ₁⟩ := hk₁.exists_acts h₁
  obtain ⟨σ₂, hσ₂⟩ := hk₂.exists_acts h₂
  refine ⟨Concord.of_law hk₁ hk₂ hσ₁, ?_⟩
  intro hcon t ht
  obtain ⟨n, s, hc⟩ := exists_compose hk₂ hσ₁
  exact ⟨_, hσ₁.gives_after hσ₂ ht, n, s, hc, hcon.composed_gives hk₁ hk₂ hσ₁ hσ₂ hc t ht⟩

/-- Both substitutions bind the variable, and to types that are the same after
`s₁`. -/
theorem agreeing_bindings_compose :
    (singleton 0 (.Con "Int")).ComposeLaw (fun _ => .type)
      ⟨[(0, .Con "Int"), (1, .Arrow (.Var 0) (.Var 2))]⟩ := by
  have hret : ∀ s : Substitution, (∀ v (k : RowKind) r, s.lookup v ≠ some (k.wrap r)) →
      s.Returns fun _ => .type := by
    intro s hs t _
    obtain ⟨t', ht⟩ : ∃ t', t.walk s (s.apply_rows 0) = .ok t' :=
      t.walk_ends_iff.mpr fun k v r _ hv => absurd hv (hs v k r)
    exact ⟨t', 0, ht⟩
  refine (compose_law_iff _ _ _ ?_ ?_ (hret _ ?_) (hret _ ?_)).mpr ⟨?_, ?_, ?_, ?_⟩
  · simp [KeepsKinds, singleton, Kind.Fits, MonoType.Kinded]
  · simp [KeepsKinds, Kind.Fits, MonoType.Kinded]
  · intro v k r
    cases k <;> simp [lookup_singleton]
  · intro v k r
    unfold lookup
    rw [lookup_cons_ite, lookup_cons_ite]
    split
    · cases k <;> simp
    · split
      · cases k <;> simp
      · simp
  · intro v t₁ t₂ _ h₁ h₂
    rw [lookup_singleton] at h₁
    split at h₁
    · rename_i hv
      subst hv
      cases h₁
      cases h₂
      exact ⟨0, rfl⟩
    · cases h₁
  · intro v k next hk
    cases hk
  · intro v k w hk
    cases hk
  · refine ⟨fun _ => 0, ?_⟩
    intro v k next j u next' hk
    cases hk

/-- A variable that both bind: the composition takes the binding of `s₁`, and
the two calls take the binding of `s₂`. -/
theorem doubly_bound_variable : ¬ ∀ (s₁ s₂ : Substitution) (t t₁ t₂ : MonoType),
    s₁.ComposeGives s₂ t t₁ → s₁.GivesAfter s₂ t t₂ → t₁ = t₂ := by
  intro h
  have heq := h (singleton 0 (.Con "Int")) (singleton 0 (.Con "Bool")) (.Var 0) (.Con "Int")
    (.Con "Bool") ⟨0, _, rfl, 0, rfl⟩ ⟨.Con "Bool", ⟨0, rfl⟩, ⟨0, rfl⟩⟩
  simp at heq

end Substitution

end paideia_as_shell_hm
