-- The inference on expressions without records, in environments without rows:
-- where an expression has a type the inference comes back, and every type of
-- the expression is an instance of the one it gives. What a run draws from the
-- generator does not depend on the bound of the counter, which only says
-- whether the run panics.
import PaideiaAs.ShellHm.Typing
import PaideiaAs.ShellHm.Yields

open Assoc

namespace paideia_as_shell_hm

open Substitution
open List (mem_append mem_map mem_singleton)
open MonoType (Arrow)
open Nat (le_succ lt_succ_self)
open FreshVarGen (fresh)

variable {s s₁ s₂ s₃ : Substitution} {n : Nat} {g g₁ g₂ : FreshVarGen} {V W : List TypeVar}
  {env Δ : TypeEnv} {scheme : TypeScheme} {t τ : MonoType} {S R : TypeVar → MonoType}

/-! ## Schemes under a substitution -/

/-- The substitution where it meets no quantified variable. -/
def TypeScheme.refine (s : Substitution) (scheme : TypeScheme) : TypeScheme :=
  ⟨scheme.quantified, scheme.body.subst (⟨without s.entries scheme.quantified⟩ : Substitution).image⟩

def TypeEnv.refine (s : Substitution) (env : TypeEnv) : TypeEnv :=
  ⟨env.entries.map fun e => (e.1, e.2.refine s)⟩

theorem image_without (s : Substitution) (qs : List TypeVar) (v : TypeVar) :
    (⟨without s.entries qs⟩ : Substitution).image v = if v ∈ qs then .Var v else s.image v := by
  unfold Substitution.image Substitution.lookup
  rw [lookup_without]
  split
  · rfl
  · rfl

theorem apply_scheme_plain (s : Substitution) (n : Nat) (h : scheme.body.Plain) :
    s.apply_scheme n scheme = .ok (scheme.refine s) := by
  unfold Substitution.apply_scheme TypeScheme.refine
  rw [h.apply, h.apply]
  split
  · rename_i hq
    have hnil : scheme.quantified = [] := by simpa using hq
    rw [hnil]
    have himg : ∀ v, (⟨without s.entries []⟩ : Substitution).image v = s.image v := by
      intro v
      rw [image_without]
      simp
    rw [scheme.body.subst_congr fun v _ => himg v]
    rfl
  · rfl

theorem apply_env_plain (s : Substitution) (n : Nat) (h : ∀ e ∈ env.entries, e.2.body.Plain) :
    s.apply_env n env = .ok (env.refine s) := by
  have hmap : ∀ es : List (String × TypeScheme), (∀ e ∈ es, e.2.body.Plain) →
      (es.mapM fun e => do let sc ← s.apply_scheme n e.2; return (e.1, sc))
        = (.ok (es.map fun e => (e.1, e.2.refine s)) : Outcome _) := by
    intro es hes
    induction es with
    | nil => rfl
    | cons e es ih =>
      rw [List.mapM_cons, apply_scheme_plain s n (hes e List.mem_cons_self),
        ih fun d hd => hes d (.tail _ hd)]
      rfl
  unfold Substitution.apply_env TypeEnv.map_schemes
  rw [hmap env.entries h]
  rfl

theorem lookup_refine (s : Substitution) (env : TypeEnv) (x : String) :
    (env.refine s).lookup x = (env.lookup x).map (TypeScheme.refine s) := by
  unfold TypeEnv.refine TypeEnv.lookup
  exact lookup_map env.entries (TypeScheme.refine s) x

variable {x : String} {body : Expr} {τ₁ τ₂ : MonoType}

theorem mem_refine {scheme' : TypeScheme} : (x, scheme') ∈ (env.refine s).entries ↔
      ∃ scheme, (x, scheme) ∈ env.entries ∧ scheme' = scheme.refine s := by
  unfold TypeEnv.refine
  simp only [mem_map, Prod.mk.injEq, Prod.exists]
  constructor
  · rintro ⟨_, scheme, hm, rfl, rfl⟩
    exact ⟨scheme, hm, rfl⟩
  · rintro ⟨scheme, hm, rfl⟩
    exact ⟨x, scheme, hm, rfl, rfl⟩

theorem free_vars_refine (h : scheme.body.Plain) {u : TypeVar}
    (hu : u ∈ (scheme.refine s).free_vars) :
    u ∉ scheme.quantified ∧ ∃ v ∈ scheme.free_vars, u ∈ (s.image v).free_vars := by
  obtain ⟨hb, hq⟩ := mem_scheme_free_vars.mp hu
  refine ⟨hq, ?_⟩
  obtain ⟨v, hv, huv⟩ := h.mem_subst.mp hb
  rw [image_without] at huv
  split at huv
  · rename_i hvq
    simp only [MonoType.free_vars, mem_singleton] at huv
    rw [huv] at hq
    exact absurd hvq hq
  · rename_i hvq
    exact ⟨v, mem_scheme_free_vars.mpr ⟨hv, hvq⟩, huv⟩

theorem instantiate_plain (n : Nat) (h : scheme.body.Plain) {k max : Nat} (hk : k ≤ max) :
    instantiate n scheme { next := k, max } = if k + scheme.quantified.length ≤ max then
        .ok (scheme.body.subst (renamingFrom scheme.quantified .empty k).image,
          { next := k + scheme.quantified.length, max })
      else .error .panic := by
  unfold instantiate
  split
  · rename_i hq
    have hnil : scheme.quantified = [] := by simpa using hq
    have hself : scheme.body.subst (renamingFrom [] .empty k).image = scheme.body :=
      h.subst_self fun v _ => rfl
    rw [hnil, hself]
    simp [hk]
  · rw [rename_quantified_eq _ _ hk]
    by_cases hfit : k + scheme.quantified.length ≤ max
    · simp only [hfit, if_true, Outcome.ok_bind, h.apply]
      rfl
    · simp only [hfit, if_false, Outcome.error_bind]

/-! ## Runs without rows -/

/-- The generator after `k` more variables. -/
def FreshVarGen.after (g : FreshVarGen) (k : Nat) : FreshVarGen := { g with next := g.next + k }

@[simp] theorem FreshVarGen.after_next (g : FreshVarGen) (k : Nat) :
    (g.after k).next = g.next + k := rfl

/-- An environment without rows, of variables below the generator, where no variable
is quantified in one scheme and free in another. -/
structure PlainEnv (env : TypeEnv) (g : FreshVarGen) : Prop where
  plain : ∀ x scheme, (x, scheme) ∈ env.entries → scheme.body.Plain
  below : ∀ x scheme v, (x, scheme) ∈ env.entries → v ∈ scheme.body.free_vars → v < g.next
  bound_below : ∀ x scheme q, (x, scheme) ∈ env.entries → q ∈ scheme.quantified → q < g.next
  apart : ∀ x scheme q, (x, scheme) ∈ env.entries → q ∈ scheme.quantified → q ∉ env.free_vars

/-- The bindings of a run from `g` to `g'` over the variables `V`: plain types over
variables that the run leaves free. -/
structure PlainRun (V : List TypeVar) (g g' : FreshVarGen) (s : Substitution) : Prop where
  le : g.next ≤ g'.next
  plain : ∀ e ∈ s.entries, e.2.Plain
  dom : ∀ v t, s.lookup v = some t → Known V g g' v
  ran : ∀ v t u, s.lookup v = some t → u ∈ t.free_vars → Known V g g' u ∧ s.lookup u = none

namespace PlainRun

theorem empty (V : List TypeVar) {g g' : FreshVarGen} (h : g.next ≤ g'.next) :
    PlainRun V g g' .empty where
  le := h
  plain e h := by simp [Substitution.empty] at h
  dom v t h := by simp at h
  ran v t u h := by simp at h

section

variable (h : PlainRun V g g₁ s)

include h

theorem image_plain (v : TypeVar) : (s.image v).Plain := by
  rcases hb : s.lookup v with _ | t
  · rw [image_unbound hb]
    trivial
  · rw [image_bound hb]
    exact h.plain _ (mem_of_lookup hb)

/-- The variables that the run leaves. -/
theorem mem_image {v u : TypeVar} (hu : u ∈ (s.image v).free_vars) :
    s.lookup u = none ∧ (u = v ∨ Known V g g₁ u) := by
  rcases hb : s.lookup v with _ | t
  · rw [image_unbound hb] at hu
    simp only [MonoType.free_vars, mem_singleton] at hu
    exact ⟨by rw [hu, hb], .inl hu⟩
  · rw [image_bound hb] at hu
    obtain ⟨hk, hn⟩ := h.ran v t u hb hu
    exact ⟨hn, .inr hk⟩

omit h in
theorem unbound (h : PlainRun V g g₁ s) {v : TypeVar} (hv : ¬ Known V g g₁ v) :
    s.lookup v = none := by
  rcases hb : s.lookup v with _ | t
  · rfl
  · exact absurd (h.dom v t hb) hv

theorem unbound_of_le (hV : ∀ v ∈ V, v < g.next) {v : TypeVar}
    (hv : g₁.next ≤ v) : s.lookup v = none :=
  h.unbound fun hk => absurd (hk.lt hV h.le) (Nat.not_lt.mpr hv)

theorem mono (hle : g₁.next ≤ g₂.next) : PlainRun V g g₂ s where
  le := h.le.trans hle
  plain := h.plain
  dom v t hv := (h.dom v t hv).mono hle
  ran v t u hv hu := ⟨(h.ran v t u hv hu).1.mono hle, (h.ran v t u hv hu).2⟩

end

/-- A second run over variables that the first one knows and left free. -/
structure Follows (V W : List TypeVar) (g g₁ : FreshVarGen) (s₁ : Substitution) : Prop where
  below : ∀ v ∈ V, v < g.next
  known : ∀ w ∈ W, Known V g g₁ w
  free : ∀ w ∈ W, s₁.lookup w = none

section

variable (h₁ : PlainRun V g g₁ s₁) (h₂ : PlainRun W g₁ g₂ s₂) (hf : Follows V W g g₁ s₁)
  {u : TypeVar}

include h₁ hf in
/-- The first run does not bind what the second one knows. -/
theorem first_unbound (hu : Known W g₁ g₂ u) : s₁.lookup u = none := by
  rcases hu with hu | hu
  · exact hf.free u hu
  · exact h₁.unbound_of_le hf.below hu.1

include h₁ h₂ hf in
theorem image_compose (v : TypeVar) : (composed s₂ s₁).image v = (s₁.image v).subst s₂.image := by
  refine image_composed ?_ v
  intro v t hv
  refine h₂.unbound ?_
  intro hk
  rw [h₁.first_unbound hf hk] at hv
  cases hv

include h₁ h₂ hf in
theorem known_compose (hu : Known W g₁ g₂ u) : Known V g g₂ u :=
  hu.trans hf.known h₁.le h₂.le

include h₁ h₂ hf in
/-- What the second run knows and leaves free, both leave free. -/
theorem left_compose (hu : Known W g₁ g₂ u ∧ s₂.lookup u = none) :
    Known V g g₂ u ∧ (composed s₂ s₁).lookup u = none := by
  refine ⟨known_compose h₁ h₂ hf hu.1, ?_⟩
  rw [lookup_composed_plain, hu.2, h₁.first_unbound hf hu.1]
  rfl

include h₁ h₂ hf in
/-- What the second run makes of a variable that the first one left, both leave free. -/
theorem left_image {v : TypeVar} (hv : Known V g g₁ v ∧ s₁.lookup v = none)
    (hu : u ∈ (s₂.image v).free_vars) : Known V g g₂ u ∧ (composed s₂ s₁).lookup u = none := by
  obtain ⟨hn, rfl | hk⟩ := h₂.mem_image hu
  · refine ⟨hv.1.mono h₂.le, ?_⟩
    rw [lookup_composed_plain, hn, hv.2]
    rfl
  · exact left_compose h₁ h₂ hf ⟨hk, hn⟩

include h₁ h₂ hf in
/-- What stands for the variables before the runs is what both make of them. -/
theorem stands_compose {R₁ R₂ : TypeVar → MonoType} (hS₁ : ∀ v < g.next, S v = (s₁.image v).subst R₁)
    (hS₂ : ∀ v < g₁.next, R₁ v = (s₂.image v).subst R₂) (v : TypeVar) (hv : v < g.next) :
    S v = ((composed s₂ s₁).image v).subst R₂ := by
  rw [image_compose h₁ h₂ hf, (h₁.image_plain v).subst_subst, hS₁ v hv]
  refine (s₁.image v).subst_congr ?_
  intro u hu
  refine hS₂ u ?_
  obtain ⟨-, rfl | hk⟩ := h₁.mem_image hu
  · exact lt_of_lt_of_le hv h₁.le
  · exact hk.lt hf.below h₁.le

include h₁ h₂ hf in
theorem compose : PlainRun V g g₂ (composed s₂ s₁) := by
  refine ⟨h₁.le.trans h₂.le, composed_entries h₁.plain h₂.plain h₂.image_plain, ?_, ?_⟩
  · intro v t hv
    rw [lookup_composed_plain] at hv
    rcases hb : s₂.lookup v with _ | t₂
    · rw [hb, Option.none_or, Option.map_eq_some_iff] at hv
      obtain ⟨t₁, ht₁, -⟩ := hv
      exact (h₁.dom v t₁ ht₁).mono h₂.le
    · exact known_compose h₁ h₂ hf (h₂.dom v t₂ hb)
  · intro v t u hv hu
    rw [lookup_composed_plain] at hv
    rcases hb : s₂.lookup v with _ | t₂
    · rw [hb, Option.none_or, Option.map_eq_some_iff] at hv
      obtain ⟨t₁, ht₁, rfl⟩ := hv
      obtain ⟨w, hw, huw⟩ := (h₁.plain _ (mem_of_lookup ht₁)).mem_subst.mp hu
      exact left_image h₁ h₂ hf (h₁.ran v t₁ w ht₁ hw) huw
    · rw [hb, Option.some_or] at hv
      cases hv
      exact left_compose h₁ h₂ hf (h₂.ran v t u hb hu)

end

end PlainRun

theorem PlainMgu.run {a b : MonoType} (h : PlainMgu s a b) (g : FreshVarGen) :
    PlainRun (a.free_vars ++ b.free_vars) g g s where
  le := le_refl _
  plain := h.plain
  dom v t hv := .inl (h.dom v t hv)
  ran v t u hv hu := ⟨.inl (h.ran v t u hv hu).1, (h.ran v t u hv hu).2⟩

/-! ## Environments along a run -/

namespace PlainEnv

theorem free_below (h : PlainEnv env g) {v : TypeVar} (hv : v ∈ env.free_vars) : v < g.next := by
  obtain ⟨x, scheme, hm, hs⟩ := mem_env_free_vars.mp hv
  exact h.below x scheme v hm (mem_scheme_free_vars.mp hs).1

theorem mem_refine_free_vars (h : PlainEnv env g) (hr : PlainRun env.free_vars g g₁ s)
    {u : TypeVar} (hu : u ∈ (env.refine s).free_vars) :
    Known env.free_vars g g₁ u ∧ s.lookup u = none := by
  obtain ⟨x, scheme', hm', hs⟩ := mem_env_free_vars.mp hu
  obtain ⟨scheme, hm, rfl⟩ := mem_refine.mp hm'
  obtain ⟨-, v, hv, huv⟩ := free_vars_refine (h.plain x scheme hm) hs
  obtain ⟨hn, rfl | hk⟩ := hr.mem_image huv
  · exact ⟨.inl (mem_env_free_vars.mpr ⟨x, scheme, hm, hv⟩), hn⟩
  · exact ⟨hk, hn⟩

theorem follows (h : PlainEnv env g) (hr : PlainRun env.free_vars g g₁ s) :
    PlainRun.Follows env.free_vars (env.refine s).free_vars g g₁ s where
  below _ hv := h.free_below hv
  known _ hw := (h.mem_refine_free_vars hr hw).1
  free _ hw := (h.mem_refine_free_vars hr hw).2

theorem refine (h : PlainEnv env g) (hr : PlainRun env.free_vars g g₁ s) :
    PlainEnv (env.refine s) g₁ := by
  refine ⟨?_, ?_, ?_, ?_⟩
  · intro x scheme' hm'
    obtain ⟨scheme, hm, rfl⟩ := mem_refine.mp hm'
    refine (h.plain x scheme hm).subst ?_
    intro v _
    rw [image_without]
    split
    · trivial
    · exact hr.image_plain v
  · intro x scheme' u hm' hu
    obtain ⟨scheme, hm, rfl⟩ := mem_refine.mp hm'
    obtain ⟨v, hv, huv⟩ := (h.plain x scheme hm).mem_subst.mp hu
    have hvg := h.below x scheme v hm hv
    rw [image_without] at huv
    split at huv
    · simp only [MonoType.free_vars, mem_singleton] at huv
      rw [huv]
      exact lt_of_lt_of_le hvg hr.le
    · obtain ⟨-, rfl | hk⟩ := hr.mem_image huv
      · exact lt_of_lt_of_le hvg hr.le
      · exact hk.lt (fun v hv => h.free_below hv) hr.le
  · intro x scheme' q hm' hq
    obtain ⟨scheme, hm, rfl⟩ := mem_refine.mp hm'
    exact lt_of_lt_of_le (h.bound_below x scheme q hm hq) hr.le
  · intro x scheme' q hm' hq hfree
    obtain ⟨scheme, hm, rfl⟩ := mem_refine.mp hm'
    -- a quantified variable is neither free before the run nor minted by it
    rcases (h.mem_refine_free_vars hr hfree).1 with hk | hk
    · exact h.apart x scheme q hm hq hk
    · exact absurd (h.bound_below x scheme q hm hq) (Nat.not_lt.mpr hk.1)

theorem extend (h : PlainEnv env g) (x : String) (hp : scheme.body.Plain)
    (hb : ∀ v ∈ scheme.body.free_vars, v < g.next) (hq : ∀ q ∈ scheme.quantified, q < g.next)
    (hnew : ∀ q ∈ scheme.quantified, q ∉ env.free_vars)
    (hold : ∀ y scheme' q, (y, scheme') ∈ env.entries → q ∈ scheme'.quantified →
      q ∉ scheme.free_vars) : PlainEnv (env.extend x scheme) g := by
  have hfree : ∀ q, q ∈ (env.extend x scheme).free_vars → q ∈ scheme.free_vars ∨ q ∈ env.free_vars := by
    intro q hq
    obtain ⟨y, scheme', hm, hs⟩ := mem_env_free_vars.mp hq
    rcases mem_extend.mp hm with ⟨-, rfl⟩ | ⟨-, hm⟩
    · exact .inl hs
    · exact .inr (mem_env_free_vars.mpr ⟨y, scheme', hm, hs⟩)
  refine ⟨?_, ?_, ?_, ?_⟩
  · intro y scheme' hm
    rcases mem_extend.mp hm with ⟨-, rfl⟩ | ⟨-, hm⟩
    · exact hp
    · exact h.plain y scheme' hm
  · intro y scheme' v hm hv
    rcases mem_extend.mp hm with ⟨-, rfl⟩ | ⟨-, hm⟩
    · exact hb v hv
    · exact h.below y scheme' v hm hv
  · intro y scheme' q hm hq'
    rcases mem_extend.mp hm with ⟨-, rfl⟩ | ⟨-, hm⟩
    · exact hq q hq'
    · exact h.bound_below y scheme' q hm hq'
  · intro y scheme' q hm hq' hf
    rcases mem_extend.mp hm with ⟨-, rfl⟩ | ⟨-, hm⟩
    · rcases hfree q hf with hs | he
      · exact (mem_scheme_free_vars.mp hs).2 hq'
      · exact hnew q hq' he
    · rcases hfree q hf with hs | he
      · exact hold y scheme' q hm hq' hs
      · exact h.apart y scheme' q hm hq' he

end PlainEnv

/-! ## What a run of the inference gives -/

/-- With enough fuel the run draws `k` variables and gives `s` and `t`, or panics
where the counter does not have as many. -/
def Runs (env : TypeEnv) (e : Expr) (g : FreshVarGen) (k : Nat) (s : Substitution) (t : MonoType) :
    Prop :=
  ∃ N, ∀ n ≥ N, ∀ max, g.next ≤ max → infer n env e { next := g.next, max } =
    if g.next + k ≤ max then .ok (s, t, { next := g.next + k, max }) else .error (.fault .panic)

theorem Runs.var (hx : env.lookup x = some scheme) (hp : scheme.body.Plain)
    (g : FreshVarGen) : Runs env (.Var x) g scheme.quantified.length .empty
      (scheme.body.subst (renamingFrom scheme.quantified .empty g.next).image) := by
  refine ⟨0, ?_⟩
  intro n _ max hmax
  simp only [infer, hx, instantiate_plain n hp hmax]
  split
  · rfl
  · rfl

theorem Runs.lam {k : Nat} (h : Runs (env.extend x ⟨[], .Var g.next⟩) body (g.after 1) k s t) :
    Runs env (.Lam x body) g (k + 1) s (.Arrow (s.image g.next) t) := by
  obtain ⟨N, hN⟩ := h
  refine ⟨N, ?_⟩
  intro n hn max hmax
  simp only [FreshVarGen.after_next] at hN
  have hsum : g.next + (k + 1) = g.next + 1 + k := by omega
  rw [hsum]
  by_cases hlt : g.next < max
  · have hbody := hN n hn max hlt
    simp only [infer, fresh, hlt, if_true, inferred, Bind.bind, Except.bind, hbody]
    by_cases hfit : g.next + 1 + k ≤ max
    · simp only [hfit, if_true]
      rfl
    · simp only [hfit, if_false]
  · have hfit : ¬ g.next + 1 + k ≤ max := by omega
    simp only [infer, fresh, hlt, if_false, inferred, Bind.bind, Except.bind, hfit]

theorem Runs.let_ {val : Expr} {k₁ k₂ : Nat} {t₁ : MonoType}
    (henv : ∀ e ∈ env.entries, e.2.body.Plain) (hs₁ : ∀ e ∈ s₁.entries, e.2.Plain)
    (h₁ : Runs env val g k₁ s₁ t₁)
    (h₂ : Runs ((env.refine s₁).extend x (generalize (env.refine s₁) t₁)) body
      (g.after k₁) k₂ s₂ t) :
    Runs env (.Let x val body) g (k₁ + k₂) (composed s₂ s₁) t := by
  obtain ⟨N₁, hN₁⟩ := h₁
  obtain ⟨N₂, hN₂⟩ := h₂
  simp only [FreshVarGen.after_next] at hN₂
  refine ⟨N₁ + N₂, ?_⟩
  intro n hn max hmax
  rw [← Nat.add_assoc]
  have hval := hN₁ n (by omega) max hmax
  by_cases hfit₁ : g.next + k₁ ≤ max
  · rw [if_pos hfit₁] at hval
    have hbody := hN₂ n (by omega) max hfit₁
    simp only [infer, hval, Bind.bind, Except.bind, apply_env_plain s₁ n henv, inferred, hbody]
    by_cases hfit : g.next + k₁ + k₂ ≤ max
    · simp only [hfit, if_true, compose_plain s₂ n hs₁]
      rfl
    · simp only [hfit, if_false]
  · rw [if_neg hfit₁] at hval
    have hfit : ¬ g.next + k₁ + k₂ ≤ max := by omega
    simp only [infer, hval, Bind.bind, Except.bind, hfit, if_false]

theorem Runs.app {f arg : Expr} {k₁ k₂ : Nat} {tf ta : MonoType}
    (henv : ∀ e ∈ env.entries, e.2.body.Plain) (hs₁ : ∀ e ∈ s₁.entries, e.2.Plain)
    (hs₂₁ : ∀ e ∈ (composed s₂ s₁).entries, e.2.Plain) (htf : tf.Plain)
    (h₁ : Runs env f g k₁ s₁ tf) (h₂ : Runs (env.refine s₁) arg (g.after k₁) k₂ s₂ ta)
    (h₃ : ∃ N, ∀ n ≥ N, ∀ g', unify_with_fresh n (tf.subst s₂.image)
      (.Arrow ta (.Var (g.next + k₁ + k₂))) g' = .ok (s₃, g')) :
    Runs env (.App f arg) g (k₁ + k₂ + 1) (composed s₃ (composed s₂ s₁))
      (s₃.image (g.next + k₁ + k₂)) := by
  obtain ⟨N₁, hN₁⟩ := h₁
  obtain ⟨N₂, hN₂⟩ := h₂
  obtain ⟨N₃, hN₃⟩ := h₃
  simp only [FreshVarGen.after_next] at hN₂
  refine ⟨N₁ + N₂ + N₃, ?_⟩
  intro n hn max hmax
  have hsum : g.next + (k₁ + k₂ + 1) = g.next + k₁ + k₂ + 1 := by omega
  rw [hsum]
  have hf := hN₁ n (by omega) max hmax
  by_cases hfit₁ : g.next + k₁ ≤ max
  · rw [if_pos hfit₁] at hf
    have ha := hN₂ n (by omega) max hfit₁
    by_cases hfit₂ : g.next + k₁ + k₂ ≤ max
    · simp only [hfit₂, if_true] at ha
      simp only [infer, hf, Bind.bind, Except.bind, apply_env_plain s₁ n henv, inferred, ha, fresh]
      by_cases hlt : g.next + k₁ + k₂ < max
      · simp only [hlt, if_true, htf.apply s₂ n, hN₃ n (by omega), unified,
          compose_plain s₂ n hs₁, compose_plain s₃ n hs₂₁, Nat.succ_le_of_lt hlt]
        rfl
      · have hfit : ¬ g.next + k₁ + k₂ + 1 ≤ max := by omega
        simp only [hlt, if_false, hfit]
    · simp only [hfit₂, if_false] at ha
      have hfit : ¬ g.next + k₁ + k₂ + 1 ≤ max := by omega
      simp only [infer, hf, Bind.bind, Except.bind, apply_env_plain s₁ n henv, inferred, ha, hfit,
        if_false]
  · rw [if_neg hfit₁] at hf
    have hfit : ¬ g.next + k₁ + k₂ + 1 ≤ max := by omega
    simp only [infer, hf, Bind.bind, Except.bind, hfit, if_false]

/-! ## Environments of the rules and of the run -/

/-- What the run knows of the environment `Δ` of the rules: under `S`, each scheme of
`env` has every instance that the scheme of `Δ` has, and `S` brings in no variable
that is not free there. -/
structure Covers (S : TypeVar → MonoType) (env Δ : TypeEnv) : Prop where
  bound : ∀ x, (Δ.lookup x).isSome → (env.lookup x).isSome
  covers : ∀ x scheme, (x, scheme) ∈ env.entries → ∃ d, Δ.lookup x = some d ∧
    (∀ v ∈ scheme.free_vars, ∀ u ∈ (S v).free_vars, u ∈ d.free_vars) ∧
    ∀ τ, Theory.plain.Instance d τ → ∃ R : TypeVar → MonoType, (∀ v, (R v).Plain) ∧
      (∀ v ∈ scheme.free_vars, R v = S v) ∧ τ = scheme.body.subst R

namespace Covers

theorem free_vars (h : Covers S env Δ) {v u : TypeVar} (hv : v ∈ env.free_vars)
    (hu : u ∈ (S v).free_vars) : u ∈ Δ.free_vars := by
  obtain ⟨x, scheme, hm, hs⟩ := mem_env_free_vars.mp hv
  obtain ⟨d, hd, hfv, -⟩ := h.covers x scheme hm
  exact mem_env_free_vars.mpr ⟨x, d, mem_of_lookup hd, hfv v hs u hu⟩

theorem refine (h : Covers S env Δ) (henv : PlainEnv env g) (hr : PlainRun env.free_vars g g₁ s)
    (hS : ∀ v < g.next, S v = (s.image v).subst R) (hR : ∀ v, (R v).Plain) :
    Covers R (env.refine s) Δ := by
  have hin : ∀ v ∈ env.free_vars, ∀ u ∈ (s.image v).free_vars, ∀ w ∈ (R u).free_vars,
      w ∈ (S v).free_vars := by
    intro v hv u hu w hw
    rw [hS v (henv.free_below hv)]
    exact (hr.image_plain v).mem_subst.mpr ⟨u, hu, hw⟩
  refine ⟨?_, ?_⟩
  · intro x hx
    rw [lookup_refine, Option.isSome_map]
    exact h.bound x hx
  · intro x scheme' hm'
    obtain ⟨scheme, hm, rfl⟩ := mem_refine.mp hm'
    obtain ⟨d, hd, hfv, hinst⟩ := h.covers x scheme hm
    have hpl := henv.plain x scheme hm
    refine ⟨d, hd, ?_, ?_⟩
    · intro u hu w hw
      obtain ⟨-, v, hv, huv⟩ := free_vars_refine hpl hu
      have hve := mem_env_free_vars.mpr ⟨x, scheme, hm, hv⟩
      exact hfv v hv w (hin v hve u huv w hw)
    · intro τ hτ
      obtain ⟨P, hP, hagree, rfl⟩ := hinst τ hτ
      refine ⟨fun v => if v ∈ scheme.quantified then P v else R v, ?_, ?_, ?_⟩
      · intro v
        dsimp only
        split
        · exact hP v
        · exact hR v
      · intro v hv
        exact if_neg (free_vars_refine hpl hv).1
      · unfold TypeScheme.refine
        dsimp only
        rw [hpl.subst_subst]
        refine scheme.body.subst_congr ?_
        intro v hv
        rw [image_without]
        by_cases hq : v ∈ scheme.quantified
        · rw [if_pos hq]
          simp only [MonoType.subst, if_pos hq]
        · rw [if_neg hq]
          have hvf : v ∈ scheme.free_vars := mem_scheme_free_vars.mpr ⟨hv, hq⟩
          have hve := mem_env_free_vars.mpr ⟨x, scheme, hm, hvf⟩
          rw [hagree v hvf, hS v (henv.free_below hve)]
          refine (s.image v).subst_congr ?_
          intro u hu
          -- what the run brings in is no quantified variable
          have hun : u ∉ scheme.quantified := by
            intro huq
            obtain ⟨-, rfl | hk⟩ := hr.mem_image hu
            · exact hq huq
            · rcases hk with hk | hk
              · exact henv.apart x scheme u hm huq hk
              · exact absurd (henv.bound_below x scheme u hm huq) (Nat.not_lt.mpr hk.1)
          rw [if_neg hun]

theorem extend (h : Covers S env Δ) (x : String) {d : TypeScheme}
    (hfv : ∀ v ∈ scheme.free_vars, ∀ u ∈ (S v).free_vars, u ∈ d.free_vars)
    (hinst : ∀ τ, Theory.plain.Instance d τ → ∃ R : TypeVar → MonoType, (∀ v, (R v).Plain) ∧
      (∀ v ∈ scheme.free_vars, R v = S v) ∧ τ = scheme.body.subst R) :
    Covers S (env.extend x scheme) (Δ.extend x d) := by
  refine ⟨?_, ?_⟩
  · intro y hy
    rw [lookup_extend] at hy ⊢
    split
    · rfl
    · rename_i hyx
      rw [if_neg hyx] at hy
      exact h.bound y hy
  · intro y scheme' hm
    rcases mem_extend.mp hm with ⟨rfl, rfl⟩ | ⟨hyx, hm⟩
    · exact ⟨d, by rw [lookup_extend, if_pos rfl], hfv, hinst⟩
    · obtain ⟨d', hd', hfv', hinst'⟩ := h.covers y scheme' hm
      exact ⟨d', by rw [lookup_extend, if_neg hyx, hd'], hfv', hinst'⟩

/-- `S` may change on variables that the environment does not have. -/
theorem congr {S' : TypeVar → MonoType} (h : Covers S env Δ)
    (hS : ∀ v ∈ env.free_vars, S' v = S v) : Covers S' env Δ := by
  refine ⟨h.bound, ?_⟩
  intro x scheme hm
  obtain ⟨d, hd, hfv, hinst⟩ := h.covers x scheme hm
  have heq : ∀ v ∈ scheme.free_vars, S' v = S v := fun v hv =>
    hS v (mem_env_free_vars.mpr ⟨x, scheme, hm, hv⟩)
  refine ⟨d, hd, ?_, ?_⟩
  · intro v hv u hu
    rw [heq v hv] at hu
    exact hfv v hv u hu
  · intro τ hτ
    obtain ⟨P, hP, hagree, rfl⟩ := hinst τ hτ
    exact ⟨P, hP, fun v hv => by rw [hagree v hv, heq v hv], rfl⟩

end Covers

/-! ## Completeness -/

/-- The type a run gives: over variables that the run knows and leaves free. -/
structure Inferred (env : TypeEnv) (g g' : FreshVarGen) (s : Substitution) (t : MonoType) : Prop where
  run : PlainRun env.free_vars g g' s
  plain : t.Plain
  left : ∀ u ∈ t.free_vars, Known env.free_vars g g' u ∧ s.lookup u = none

/-- The run succeeds, and `τ` is what its type becomes under some `R` that takes up
where the run leaves off. -/
def Complete (S : TypeVar → MonoType) (env : TypeEnv) (e : Expr) (g : FreshVarGen) (τ : MonoType) :
    Prop :=
  ∃ k s t R, Runs env e g k s t ∧ Inferred env g (g.after k) s t ∧ (∀ v, (R v).Plain) ∧
    τ = t.subst R ∧ ∀ v < g.next, S v = (s.image v).subst R

theorem complete_var {d : TypeScheme} (henv : PlainEnv env g) (hcov : Covers S env Δ)
    (hS : ∀ v, (S v).Plain) (hx : Δ.lookup x = some d) (hi : Theory.plain.Instance d τ) :
    Complete S env (.Var x) g τ := by
  obtain ⟨scheme, hsch⟩ := Option.isSome_iff_exists.mp (hcov.bound x (by simp [hx]))
  have hm := mem_of_lookup hsch
  obtain ⟨d', hd', -, hinst⟩ := hcov.covers x scheme hm
  rw [hx] at hd'
  cases hd'
  obtain ⟨P, hP, hagree, rfl⟩ := hinst τ hi
  have hpl := henv.plain x scheme hm
  let ren := renamingFrom scheme.quantified .empty g.next
  -- a fresh variable stands for what the renamed one stands for
  let R : TypeVar → MonoType := fun w =>
    open Classical in
    if h : ∃ q ∈ scheme.quantified, ren.lookup q = some (.Var w) then P h.choose else S w
  have hRfresh : ∀ q ∈ scheme.quantified, ∀ w, ren.lookup q = some (.Var w) → R w = P q := by
    intro q hq w hw
    have h : ∃ q ∈ scheme.quantified, ren.lookup q = some (.Var w) := ⟨q, hq, hw⟩
    have hq' := h.choose_spec
    rw [show R w = P h.choose from dif_pos h, renamingFrom_inj hq hq'.1 hw hq'.2]
  have hRold : ∀ v < g.next, R v = S v := by
    intro v hv
    refine dif_neg ?_
    rintro ⟨q, hq, hw⟩
    obtain ⟨w, hlo, -, hw'⟩ := @renamingFrom_mem scheme.quantified .empty g.next q hq
    rw [show ren.lookup q = some (.Var w) from hw'] at hw
    cases hw
    exact absurd hv (Nat.not_lt.mpr hlo)
  have hunq : ∀ v, v ∉ scheme.quantified → ren.image v = .Var v := by
    intro v hv
    exact image_unbound (by rw [show ren.lookup v = _ from renamingFrom_other hv]; rfl)
  refine ⟨scheme.quantified.length, .empty, scheme.body.subst ren.image, R,
    Runs.var hsch hpl g, ⟨PlainRun.empty _ (by simp), ?_, ?_⟩, ?_, ?_, ?_⟩
  · refine hpl.subst ?_
    intro v _
    by_cases hq : v ∈ scheme.quantified
    · obtain ⟨w, -, -, hw⟩ := @renamingFrom_mem scheme.quantified .empty g.next v hq
      rw [image_bound hw]
      trivial
    · rw [hunq v hq]
      trivial
  · intro u hu
    refine ⟨?_, rfl⟩
    obtain ⟨v, hv, huv⟩ := hpl.mem_subst.mp hu
    by_cases hq : v ∈ scheme.quantified
    · obtain ⟨w, hlo, hhi, hw⟩ := @renamingFrom_mem scheme.quantified .empty g.next v hq
      rw [image_bound hw] at huv
      simp only [MonoType.free_vars, mem_singleton] at huv
      rw [huv]
      exact .inr ⟨hlo, hhi⟩
    · rw [hunq v hq] at huv
      simp only [MonoType.free_vars, mem_singleton] at huv
      rw [huv]
      exact .inl (mem_env_free_vars.mpr ⟨x, scheme, hm, mem_scheme_free_vars.mpr ⟨hv, hq⟩⟩)
  · intro v
    by_cases h : ∃ q ∈ scheme.quantified, ren.lookup q = some (.Var v)
    · rw [show R v = P h.choose from dif_pos h]
      exact hP _
    · rw [show R v = S v from dif_neg h]
      exact hS v
  · rw [hpl.subst_subst]
    refine scheme.body.subst_congr ?_
    intro v hv
    by_cases hq : v ∈ scheme.quantified
    · obtain ⟨w, -, -, hw⟩ := @renamingFrom_mem scheme.quantified .empty g.next v hq
      rw [image_bound hw]
      exact (hRfresh v hq w hw).symm
    · rw [hunq v hq, hagree v (mem_scheme_free_vars.mpr ⟨hv, hq⟩)]
      exact (hRold v (henv.below x scheme v hm hv)).symm
  · intro v hv
    exact (hRold v hv).symm

theorem complete_lit (l : Lit) (hS : ∀ v, (S v).Plain) : Complete S env (.Lit l) g l.type := by
  refine ⟨0, .empty, l.type, S, ⟨0, ?_⟩, ⟨PlainRun.empty _ (by simp), ?_, ?_⟩, hS, ?_, ?_⟩
  · intro n _ max hmax
    cases l <;> simp [infer, hmax, Lit.type]
  · cases l <;> trivial
  · intro u hu
    cases l <;> simp [Lit.type, MonoType.free_vars] at hu
  · cases l <;> rfl
  · intro v _
    rfl

/-- The parameter of a function: a fresh variable that stands for its type. -/
def withParam (S : TypeVar → MonoType) (a : TypeVar) (τ : MonoType) : TypeVar → MonoType :=
  fun v => if v = a then τ else S v

theorem withParam_plain {a : TypeVar} (hS : ∀ v, (S v).Plain) (hτ : τ.Plain) (v : TypeVar) :
    (withParam S a τ v).Plain := by
  unfold withParam
  split
  · exact hτ
  · exact hS v

theorem withParam_below (v : TypeVar) (hv : v < g.next) (τ : MonoType) :
    withParam S g.next τ v = S v := if_neg (Nat.ne_of_lt hv)

/-- What stands for the variables before a run does not turn on the variable drawn
after it. -/
theorem PlainRun.stands_withParam (h : PlainRun V g g₁ s) (hV : ∀ v ∈ V, v < g.next)
    (hS : ∀ v < g.next, S v = (s.image v).subst R) {v : TypeVar} (hv : v < g.next)
    (τ : MonoType) : S v = (s.image v).subst (withParam R g₁.next τ) := by
  rw [hS v hv]
  refine (s.image v).subst_congr ?_
  intro u hu
  refine (withParam_below u ?_ τ).symm
  obtain ⟨-, rfl | hk⟩ := h.mem_image hu
  · exact lt_of_lt_of_le hv h.le
  · exact hk.lt hV h.le

/-- The environment of the body of a function. -/
theorem PlainEnv.param (h : PlainEnv env g) (x : String) :
    PlainEnv (env.extend x ⟨[], .Var g.next⟩) (g.after 1) := by
  have h' : PlainEnv env (g.after 1) :=
    ⟨h.plain, fun x scheme v hm hv => (h.below x scheme v hm hv).trans (lt_succ_self _),
      fun x scheme q hm hq => (h.bound_below x scheme q hm hq).trans (lt_succ_self _), h.apart⟩
  refine h'.extend x trivial ?_ (by simp) (by simp) ?_
  · intro v hv
    simp only [MonoType.free_vars, mem_singleton] at hv
    rw [hv]
    exact lt_succ_self _
  · intro y scheme q hm hq hf
    have hfv := (mem_scheme_free_vars.mp hf).1
    simp only [MonoType.free_vars, mem_singleton] at hfv
    rw [hfv] at hq
    exact absurd (h.bound_below y scheme _ hm hq) (lt_irrefl _)

theorem Covers.param (h : Covers S env Δ) (henv : PlainEnv env g) (x : String)
    (hS : ∀ v, (S v).Plain) (hτ : τ₁.Plain) :
    Covers (withParam S g.next τ₁) (env.extend x ⟨[], .Var g.next⟩) (Δ.extend x ⟨[], τ₁⟩) := by
  have hself : withParam S g.next τ₁ g.next = τ₁ := if_pos rfl
  refine (h.congr fun v hv => withParam_below v (henv.free_below hv) τ₁).extend x ?_ ?_
  · intro v hv u hu
    have hfv := (mem_scheme_free_vars.mp hv).1
    simp only [MonoType.free_vars, mem_singleton] at hfv
    rw [hfv, hself] at hu
    exact mem_scheme_free_vars.mpr ⟨hu, by simp⟩
  · rintro τ ⟨σ, -, hfix, rfl⟩
    refine ⟨withParam S g.next τ₁, withParam_plain hS hτ, fun v _ => rfl, ?_⟩
    simp only [MonoType.subst, hself]
    exact hτ.subst_self fun v _ => hfix v (by simp)

theorem complete_lam (h : Complete (withParam S g.next τ₁) (env.extend x ⟨[], .Var g.next⟩) body (g.after 1) τ₂) :
    Complete S env (.Lam x body) g (.Arrow τ₁ τ₂) := by
  obtain ⟨k, s, t, R, hrun, hinf, hR, rfl, hS⟩ := h
  have hknown : ∀ v, Known (env.extend x ⟨[], .Var g.next⟩).free_vars (g.after 1) ((g.after 1).after k) v →
      Known env.free_vars g (g.after (k + 1)) v := by
    intro v hv
    rcases hv with hv | hv
    · obtain ⟨y, scheme, hm, hs⟩ := mem_env_free_vars.mp hv
      rcases mem_extend.mp hm with ⟨-, rfl⟩ | ⟨-, hm⟩
      · have hfv := (mem_scheme_free_vars.mp hs).1
        simp only [MonoType.free_vars, mem_singleton] at hfv
        rw [hfv]
        exact .inr ⟨le_refl _, by simp⟩
      · exact .inl (mem_env_free_vars.mpr ⟨y, scheme, hm, hs⟩)
    · simp only [FreshVarGen.after_next] at hv
      refine .inr ⟨(le_succ _).trans hv.1, ?_⟩
      simp only [FreshVarGen.after_next]
      have := hv.2
      rwa [Nat.add_assoc, Nat.add_comm 1] at this
  have hparam : Known env.free_vars g (g.after (k + 1)) g.next := .inr ⟨le_refl _, by simp⟩
  have hrun' : PlainRun env.free_vars g (g.after (k + 1)) s :=
    ⟨by simp, hinf.run.plain, fun v t hv => hknown v (hinf.run.dom v t hv),
      fun v t u hv hu => ⟨hknown u (hinf.run.ran v t u hv hu).1, (hinf.run.ran v t u hv hu).2⟩⟩
  refine ⟨k + 1, s, .Arrow (s.image g.next) t, R, hrun.lam, ⟨hrun', ?_, ?_⟩, hR, ?_, ?_⟩
  · exact ⟨hinf.run.image_plain _, hinf.plain⟩
  · intro u hu
    simp only [MonoType.free_vars, mem_append] at hu
    rcases hu with hu | hu
    · obtain ⟨hn, rfl | hk⟩ := hrun'.mem_image hu
      · exact ⟨hparam, hn⟩
      · exact ⟨hk, hn⟩
    · exact ⟨hknown u (hinf.left u hu).1, (hinf.left u hu).2⟩
  · have ha := hS g.next (lt_succ_self _)
    rw [show withParam S g.next τ₁ g.next = τ₁ from if_pos rfl] at ha
    simp only [MonoType.subst]
    rw [ha]
  · intro v hv
    rw [← hS v (hv.trans (lt_succ_self _)), withParam_below v hv]

/-- The environment of the body of a `let`. -/
theorem PlainEnv.generalized (h : PlainEnv env g) (x : String) (ht : t.Plain)
    (hlt : ∀ v ∈ t.free_vars, v < g.next) : PlainEnv (env.extend x (generalize env t)) g := by
  refine h.extend x ht hlt ?_ ?_ ?_
  · intro q hq
    exact hlt q (mem_generalize.mp hq).1
  · intro q hq
    exact (mem_generalize.mp hq).2
  · intro y scheme q hm hq hf
    exact h.apart y scheme q hm hq (generalize_free_vars.mp hf).2

/-- Every type that the rules give the bound name is an instance of its scheme. -/
theorem Covers.generalized {qs : List TypeVar} (h : Covers R env Δ) (x : String) (ht : t.Plain)
    (hR : ∀ v, (R v).Plain) (hqs : ∀ q ∈ qs, q ∉ Δ.free_vars) :
    Covers R (env.extend x (generalize env t)) (Δ.extend x ⟨qs, t.subst R⟩) := by
  refine h.extend x ?_ ?_
  · intro v hv u hu
    obtain ⟨hvt, hve⟩ := generalize_free_vars.mp hv
    refine mem_scheme_free_vars.mpr ⟨ht.mem_subst.mpr ⟨v, hvt, hu⟩, ?_⟩
    intro huq
    exact hqs u huq (h.free_vars hve hu)
  · rintro τ ⟨σ, hσ, hfix, rfl⟩
    refine ⟨fun v => (R v).subst σ, fun v => (hR v).subst fun u _ => hσ u, ?_, ht.subst_subst R σ⟩
    intro v hv
    -- what stands for a free variable of the environment has no variable of `qs`
    have hve := (generalize_free_vars.mp hv).2
    refine (hR v).subst_self ?_
    intro u hu
    refine hfix u ?_
    intro huq
    exact hqs u huq (h.free_vars hve hu)

theorem complete_let {val : Expr} {qs : List TypeVar}
    (henv : PlainEnv env g) (hcov : Covers S env Δ) (hqs : ∀ q ∈ qs, q ∉ Δ.free_vars)
    (hval : Complete S env val g τ₁)
    (hbody : ∀ env' g' R, PlainEnv env' g' → Covers R env' (Δ.extend x ⟨qs, τ₁⟩) →
      (∀ v, (R v).Plain) → Complete R env' body g' τ₂) :
    Complete S env (.Let x val body) g τ₂ := by
  obtain ⟨k₁, s₁, t₁, R₁, hrun₁, hinf₁, hR₁, rfl, hS₁⟩ := hval
  have hf := henv.follows hinf₁.run
  have henv₁ := henv.refine hinf₁.run
  have hlt : ∀ v ∈ t₁.free_vars, v < (g.after k₁).next := fun v hv =>
    (hinf₁.left v hv).1.lt hf.below hinf₁.run.le
  have hcov₁ := (hcov.refine henv hinf₁.run hS₁ hR₁).generalized x hinf₁.plain hR₁ hqs
  obtain ⟨k₂, s₂, t₂, R₂, hrun₂, hinf₂, hR₂, rfl, hS₂⟩ :=
    hbody _ _ _ (henv₁.generalized x hinf₁.plain hlt) hcov₁ hR₁
  -- the scheme brings in no free variable, so the second run follows the first
  have hf₂ : PlainRun.Follows env.free_vars
      ((env.refine s₁).extend x (generalize (env.refine s₁) t₁)).free_vars g (g.after k₁) s₁ :=
    ⟨hf.below, fun w hw => hf.known w (mem_generalized_free_vars hw),
      fun w hw => hf.free w (mem_generalized_free_vars hw)⟩
  have hafter : (g.after k₁).after k₂ = g.after (k₁ + k₂) := by
    simp [FreshVarGen.after, Nat.add_assoc]
  rw [hafter] at hinf₂
  refine ⟨k₁ + k₂, composed s₂ s₁, t₂, R₂,
    Runs.let_ (fun e he => henv.plain e.1 e.2 he) hinf₁.run.plain hrun₁ hrun₂,
    ⟨PlainRun.compose hinf₁.run hinf₂.run hf₂, hinf₂.plain, ?_⟩, hR₂, rfl,
    PlainRun.stands_compose hinf₁.run hinf₂.run hf₂ hS₁ hS₂⟩
  intro u hu
  exact PlainRun.left_compose hinf₁.run hinf₂.run hf₂ (hinf₂.left u hu)

/-- Where two plain types have a unifier, the call gives a most general one. -/
theorem unifier_found {a b : MonoType} (ha : a.Plain) (hb : b.Plain)
    (hu : ∃ σ : TypeVar → MonoType, a.subst σ = b.subst σ) :
    ∃ s, (∃ N, ∀ n ≥ N, ∀ g, unify_with_fresh n a b g = .ok (s, g)) ∧ PlainMgu s a b := by
  obtain ⟨N, ⟨s, hcall, hm⟩ | ⟨e, -, hno⟩⟩ := plain_decided _ _ ha hb (le_refl _) (le_refl _)
  · exact ⟨s, ⟨N, hcall⟩, hm⟩
  · obtain ⟨σ, hσ⟩ := hu
    exact absurd hσ (hno σ)

theorem complete_app {f arg : Expr} (henv : PlainEnv env g)
    (hcov : Covers S env Δ) (hfun : Complete S env f g (.Arrow τ₁ τ₂))
    (harg : ∀ env' g' R, PlainEnv env' g' → Covers R env' Δ → (∀ v, (R v).Plain) →
      Complete R env' arg g' τ₁) : Complete S env (.App f arg) g τ₂ := by
  obtain ⟨k₁, s₁, tf, R₁, hrun₁, hinf₁, hR₁, htf, hS₁⟩ := hfun
  have hf := henv.follows hinf₁.run
  have henv₁ := henv.refine hinf₁.run
  obtain ⟨k₂, s₂, ta, R₂, hrun₂, hinf₂, hR₂, hta, hS₂⟩ :=
    harg _ _ _ henv₁ (hcov.refine henv hinf₁.run hS₁ hR₁) hR₁
  have hτ₂ : τ₂.Plain := by
    have : (Arrow τ₁ τ₂).Plain := by
      rw [htf]
      exact hinf₁.plain.subst fun v _ => hR₁ v
    exact this.2
  have hafter : (g.after k₁).after k₂ = g.after (k₁ + k₂) := by
    simp [FreshVarGen.after, Nat.add_assoc]
  rw [hafter] at hinf₂
  have h₂₁ := PlainRun.compose hinf₁.run hinf₂.run hf
  -- the types of the function and of the argument, under both runs
  let r := (g.after (k₁ + k₂)).next
  have hr : r = g.next + k₁ + k₂ := by
    simp only [r, FreshVarGen.after_next]
    omega
  have htf₂ : (tf.subst s₂.image).Plain := hinf₁.plain.subst fun v _ => hinf₂.run.image_plain v
  have hleft : ∀ u ∈ (tf.subst s₂.image).free_vars ++ ta.free_vars,
      Known env.free_vars g (g.after (k₁ + k₂)) u ∧ (composed s₂ s₁).lookup u = none := by
    intro u hu
    rcases mem_append.mp hu with hu | hu
    · obtain ⟨v, hv, huv⟩ := hinf₁.plain.mem_subst.mp hu
      exact PlainRun.left_image hinf₁.run hinf₂.run hf (hinf₁.left v hv) huv
    · exact PlainRun.left_compose hinf₁.run hinf₂.run hf (hinf₂.left u hu)
  -- the rules say how the two sides come together
  let σ := withParam R₂ r τ₂
  have hσ : ∀ v, (σ v).Plain := withParam_plain hR₂ hτ₂
  have hσr : σ r = τ₂ := if_pos rfl
  have hσ₂ : ∀ v < (g.after k₁).next, R₁ v = (s₂.image v).subst σ := fun v hv =>
    hinf₂.run.stands_withParam (fun u hu => henv₁.free_below hu) hS₂ hv τ₂
  have hunif : (tf.subst s₂.image).subst σ = (Arrow ta (.Var r)).subst σ := by
    have hfun : (tf.subst s₂.image).subst σ = .Arrow τ₁ τ₂ := by
      rw [hinf₁.plain.subst_subst, htf]
      refine tf.subst_congr ?_
      intro v hv
      exact (hσ₂ v ((hinf₁.left v hv).1.lt hf.below hinf₁.run.le)).symm
    have harg : ta.subst σ = τ₁ := by
      rw [hta]
      refine ta.subst_congr ?_
      intro v hv
      exact withParam_below v ((hleft v (List.mem_append_right _ hv)).1.lt hf.below h₂₁.le) τ₂
    rw [hfun]
    simp only [MonoType.subst]
    rw [harg, hσr]
  have hpa : (Arrow ta (.Var r)).Plain := ⟨hinf₂.plain, trivial⟩
  obtain ⟨s₃, hcall, hmgu⟩ := unifier_found htf₂ hpa ⟨σ, hunif⟩
  have habs := hmgu.absorbs σ hunif
  -- the unifier binds what both runs left, and the fresh variable
  have h₂₁' : PlainRun env.free_vars g (g.after (k₁ + k₂ + 1)) (composed s₂ s₁) :=
    h₂₁.mono (le_succ _)
  have hrfree : (composed s₂ s₁).lookup r = none := h₂₁.unbound_of_le hf.below (le_refl _)
  have hrk : Known env.free_vars g (g.after (k₁ + k₂ + 1)) r := by
    refine .inr ⟨?_, lt_succ_self _⟩
    simp [r]
  have hleft' : ∀ u ∈ (tf.subst s₂.image).free_vars ++ (Arrow ta (.Var r)).free_vars,
      Known env.free_vars g (g.after (k₁ + k₂ + 1)) u ∧ (composed s₂ s₁).lookup u = none := by
    intro u hu
    simp only [MonoType.free_vars, mem_append, mem_singleton] at hu
    rcases hu with hu | hu | rfl
    · obtain ⟨hk, hn⟩ := hleft u (List.mem_append_left _ hu)
      exact ⟨hk.mono (le_succ _), hn⟩
    · obtain ⟨hk, hn⟩ := hleft u (List.mem_append_right _ hu)
      exact ⟨hk.mono (le_succ _), hn⟩
    · exact ⟨hrk, hrfree⟩
  have hf₃ : PlainRun.Follows env.free_vars
      ((tf.subst s₂.image).free_vars ++ (Arrow ta (.Var r)).free_vars) g
      (g.after (k₁ + k₂ + 1)) (composed s₂ s₁) :=
    ⟨hf.below, fun w hw => (hleft' w hw).1, fun w hw => (hleft' w hw).2⟩
  have hrun₃ := hmgu.run (g.after (k₁ + k₂ + 1))
  refine ⟨k₁ + k₂ + 1, composed s₃ (composed s₂ s₁), s₃.image r, σ, ?_,
    ⟨PlainRun.compose h₂₁' hrun₃ hf₃, hmgu.image_plain r, ?_⟩, hσ, ?_, ?_⟩
  · rw [hr] at hcall ⊢
    exact Runs.app (fun e he => henv.plain e.1 e.2 he) hinf₁.run.plain h₂₁.plain hinf₁.plain hrun₁
      hrun₂ hcall
  · intro u hu
    exact PlainRun.left_image h₂₁' hrun₃ hf₃ ⟨hrk, hrfree⟩ hu
  · rw [habs r, hσr]
  · refine PlainRun.stands_compose h₂₁' hrun₃ hf₃ ?_ fun v _ => (habs v).symm
    exact PlainRun.stands_compose hinf₁.run hinf₂.run hf hS₁ hσ₂

/-- Where the rules give a type, the run comes back with a type that it is an
instance of. The induction is on the expression, for all environments at once. -/
theorem infer_complete : ∀ (e : Expr), e.RecordFree → ∀ {env Δ : TypeEnv} {g : FreshVarGen}
    {S : TypeVar → MonoType} {τ : MonoType}, PlainEnv env g → Covers S env Δ →
    (∀ v, (S v).Plain) → HasType Theory.plain Δ e τ → Complete S env e g τ
  | .Var x, _, _, _, _, _, _, henv, hcov, hS, h => by
    cases h.plain_rule with
    | var hx hi => exact complete_var henv hcov hS hx hi
  | .Lit l, _, _, _, _, _, _, _, _, hS, h => by
    cases h.plain_rule with
    | lit => exact complete_lit l hS
  | .Lam x body, hfree, _, _, _, _, _, henv, hcov, hS, h => by
    cases h.plain_rule with
    | lam ht hb =>
      exact complete_lam (infer_complete body hfree (henv.param x) (hcov.param henv x hS ht)
        (withParam_plain hS ht) hb)
  | .App f arg, hfree, _, _, _, _, _, henv, hcov, hS, h => by
    cases h.plain_rule with
    | app hf ha =>
      exact complete_app henv hcov (infer_complete f hfree.1 henv hcov hS hf)
        fun _ _ _ henv' hcov' hR => infer_complete arg hfree.2 henv' hcov' hR ha
  | .Let x val body, hfree, _, _, _, _, _, henv, hcov, hS, h => by
    cases h.plain_rule with
    | let_ qs hv hq hb =>
      exact complete_let henv hcov hq (infer_complete val hfree.1 henv hcov hS hv)
        fun _ _ _ henv' hcov' hR => infer_complete body hfree.2 henv' hcov' hR hb

/-! ## The principal type -/

/-- No scheme has a row. -/
def TypeEnv.Plain (env : TypeEnv) : Prop :=
  ∀ x scheme, (x, scheme) ∈ env.entries → scheme.body.Plain

theorem closed_covers (h : env.Closed) : Covers .Var env env := by
  have hnone : ∀ x scheme v, (x, scheme) ∈ env.entries → v ∉ scheme.free_vars :=
    fun x scheme v hm hv => h.closed v (mem_env_free_vars.mpr ⟨x, scheme, hm, hv⟩)
  refine ⟨fun x hx => hx, ?_⟩
  intro x scheme hm
  refine ⟨scheme, (lookup_iff_mem h.keyed).mpr hm, ?_, ?_⟩
  · intro v hv
    exact absurd hv (hnone x scheme v hm)
  · rintro τ ⟨σ, hσ, -, rfl⟩
    exact ⟨σ, hσ, fun v hv => absurd hv (hnone x scheme v hm), rfl⟩

/-- A finite substitution that does to a type what `R` does. -/
theorem exists_instance (ht : t.Plain) (R : TypeVar → MonoType) :
    ∃ u : Substitution, ∀ n, u.apply n t = .ok (t.subst R) := by
  let u : Substitution := ⟨t.free_vars.map fun v => (v, R v)⟩
  have himg : ∀ v ∈ t.free_vars, u.image v = R v := by
    intro v hv
    have hsome : (u.entries.lookup v).isSome := by
      rw [lookup_isSome]
      exact mem_map.mpr ⟨(v, R v), mem_map.mpr ⟨v, hv, rfl⟩, rfl⟩
    obtain ⟨t', ht'⟩ := Option.isSome_iff_exists.mp hsome
    obtain ⟨w, -, hw⟩ := mem_map.mp (mem_of_lookup ht')
    cases hw
    exact image_bound ht'
  refine ⟨u, ?_⟩
  intro n
  rw [ht.apply, t.subst_congr himg]

/-- An expression without records that has a type has a principal one, and the
inference gives it, as long as the counter has the variables that the run draws. -/
theorem infer_principal {e : Expr} (hfree : e.RecordFree) (hclosed : env.Closed)
    (hplain : env.Plain) (hbelow : env.Below g) (h : HasType Theory.plain env e τ) :
    ∃ k s t, Runs env e g k s t ∧
      ∀ τ', HasType Theory.plain env e τ' → ∃ u : Substitution, ∀ n, u.apply n t = .ok τ' := by
  have henv : PlainEnv env g :=
    ⟨hplain, fun x scheme v hm hv => hbelow x scheme v hm (.inl hv),
      fun x scheme q hm hq => hbelow x scheme q hm (.inr hq), fun _ _ q _ _ => hclosed.closed q⟩
  have hcomplete : ∀ τ', HasType Theory.plain env e τ' → Complete .Var env e g τ' := fun τ' h' =>
    infer_complete e hfree henv (closed_covers hclosed) (fun _ => trivial) h'
  obtain ⟨k, s, t, R, hrun, hinf, -, -, -⟩ := hcomplete τ h
  refine ⟨k, s, t, hrun, ?_⟩
  intro τ' h'
  obtain ⟨k', s', t', R', hrun', hinf', -, rfl, -⟩ := hcomplete τ' h'
  -- the run is one and the same
  have ht : t' = t := by
    obtain ⟨N, hN⟩ := hrun
    obtain ⟨N', hN'⟩ := hrun'
    have h₁ := hN (N + N') (by omega) (g.next + k + k') (by omega)
    have h₂ := hN' (N + N') (by omega) (g.next + k + k') (by omega)
    rw [if_pos (by omega)] at h₁ h₂
    rw [h₁] at h₂
    simp only [Except.ok.injEq, Prod.mk.injEq] at h₂
    exact h₂.2.1.symm
  rw [ht]
  exact exists_instance hinf.plain R'

/-- `id : ∀ 0. 0 → 0`. -/
def idEnv : TypeEnv := ⟨[("id", ⟨[0], .Arrow (.Var 0) (.Var 0)⟩)]⟩

theorem id_applied : HasType Theory.plain idEnv (.App (.Var "id") (.Lit .Int)) (.Con "Int") := by
  have hid : HasType Theory.plain idEnv (.Var "id") (.Arrow (.Con "Int") (.Con "Int")) := by
    refine .var rfl ⟨fun v => if v = 0 then .Con "Int" else .Var v, ?_, ?_, rfl⟩
    · intro v
      dsimp only
      split <;> trivial
    · intro v hv
      exact if_neg (by simpa using hv)
  exact .app hid (.lit .Int)

theorem id_applied_principal : ∃ k s t, Runs idEnv (.App (.Var "id") (.Lit .Int)) { next := 1 } k s t ∧
    ∀ τ', HasType Theory.plain idEnv (.App (.Var "id") (.Lit .Int)) τ' →
      ∃ u : Substitution, ∀ n, u.apply n t = .ok τ' := by
  refine infer_principal (by simp [Expr.RecordFree]) ⟨by decide, ?_⟩ ?_ ?_ id_applied
  · intro v hv
    simp [idEnv, TypeEnv.free_vars, TypeScheme.free_vars, MonoType.free_vars] at hv
  · intro x scheme hm
    simp only [idEnv, List.mem_singleton, Prod.mk.injEq] at hm
    rw [hm.2]
    exact ⟨trivial, trivial⟩
  · intro x scheme v hm hv
    simp only [idEnv, List.mem_singleton, Prod.mk.injEq] at hm
    rw [hm.2] at hv
    simp [MonoType.free_vars] at hv
    simp [hv]

/-- At the last value of the counter a function has a type, and the run panics. -/
theorem counter_runs_out :
    HasType Theory.plain TypeEnv.new (.Lam "x" (.Var "x")) (.Arrow (.Con "Int") (.Con "Int")) ∧
    TypeEnv.new.Closed ∧ TypeEnv.new.Below { next := 4294967295 } ∧
    ∀ n, infer n TypeEnv.new (.Lam "x" (.Var "x")) { next := 4294967295 } =
      .error (.fault .panic) := by
  refine ⟨.lam (by trivial) (.var rfl ⟨.Var, fun _ => trivial, fun _ _ => rfl, rfl⟩),
    ⟨by decide, fun v hv => ?_⟩, ?_, fun n => rfl⟩
  · simp [TypeEnv.new, TypeEnv.free_vars] at hv
  · intro x scheme v hm
    simp [TypeEnv.new] at hm

end paideia_as_shell_hm
