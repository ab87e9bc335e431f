-- The unifier on the types without rows: variables, constants and arrows. It
-- always comes back, with a most general unifier just when there is one.
import PaideiaAs.ShellHm.Unify

open Assoc

namespace paideia_as_shell_hm

open Substitution
open List (mem_append mem_singleton mem_toFinset)
open MonoType (Arrow)

/-- A type without rows. -/
def MonoType.Plain : MonoType → Prop
  | .Var _ => True
  | .Con _ => True
  | .Arrow a b => a.Plain ∧ b.Plain
  | .Record _ => False
  | .EffectRow _ => False
  | .Typed _ _ => False

def MonoType.size : MonoType → Nat
  | .Arrow a b => a.size + b.size + 1
  | _ => 1

theorem MonoType.size_pos (t : MonoType) : 0 < t.size := by
  cases t <;> simp [MonoType.size]

variable {a b t : MonoType} {s s₁ s₂ s₃ : Substitution} {σ ρ : TypeVar → MonoType} {n : Nat}

namespace Substitution

/-- What the substitution gives a type variable. -/
def image (s : Substitution) (v : TypeVar) : MonoType := (s.lookup v).getD (.Var v)

theorem image_unbound {v : TypeVar} (h : s.lookup v = none) : s.image v = .Var v := by
  simp [Substitution.image, h]

theorem image_bound {v : TypeVar} (h : s.lookup v = some t) : s.image v = t := by
  simp [Substitution.image, h]

end Substitution

/-! ## Substitution in plain types -/

namespace MonoType.Plain

theorem subst_subst (σ ρ : TypeVar → MonoType) : ∀ {t : MonoType}, t.Plain →
    (t.subst σ).subst ρ = t.subst fun v => (σ v).subst ρ
  | .Var _, _ => rfl
  | .Con _, _ => rfl
  | .Arrow x y, h => by
    simp only [MonoType.subst]
    rw [subst_subst σ ρ h.1, subst_subst σ ρ h.2]

theorem subst_self : ∀ {t : MonoType}, t.Plain → (∀ v ∈ t.free_vars, σ v = .Var v) → t.subst σ = t
  | .Var v, _, hσ => hσ v (by simp [MonoType.free_vars])
  | .Con _, _, _ => rfl
  | .Arrow x y, h, hσ => by
    simp only [MonoType.free_vars, mem_append] at hσ
    simp only [MonoType.subst]
    rw [subst_self h.1 fun v hv => hσ v (.inl hv), subst_self h.2 fun v hv => hσ v (.inr hv)]

theorem mem_subst {u : TypeVar} : ∀ {t : MonoType}, t.Plain →
    (u ∈ (t.subst σ).free_vars ↔ ∃ v ∈ t.free_vars, u ∈ (σ v).free_vars)
  | .Var v, _ => by simp [MonoType.subst, MonoType.free_vars]
  | .Con _, _ => by simp [MonoType.subst, MonoType.free_vars]
  | .Arrow x y, h => by
    simp only [MonoType.subst, MonoType.free_vars, mem_append, mem_subst h.1, mem_subst h.2]
    constructor
    · rintro (⟨v, hv, hu⟩ | ⟨v, hv, hu⟩)
      · exact ⟨v, .inl hv, hu⟩
      · exact ⟨v, .inr hv, hu⟩
    · rintro ⟨v, hv | hv, hu⟩
      · exact .inl ⟨v, hv, hu⟩
      · exact .inr ⟨v, hv, hu⟩

theorem subst : ∀ {t : MonoType}, t.Plain → (∀ v ∈ t.free_vars, (σ v).Plain) → (t.subst σ).Plain
  | .Var v, _, hσ => hσ v (by simp [MonoType.free_vars])
  | .Con _, _, _ => trivial
  | .Arrow x y, h, hσ => by
    simp only [MonoType.free_vars, mem_append] at hσ
    exact ⟨subst h.1 fun v hv => hσ v (.inl hv), subst h.2 fun v hv => hσ v (.inr hv)⟩

/-- No row is entered in a plain type, so any fuel is enough. -/
theorem apply (s : Substitution) (n : Nat) : ∀ {t : MonoType}, t.Plain →
    s.apply n t = .ok (t.subst s.image)
  | .Var _, _ => rfl
  | .Con _, _ => rfl
  | .Arrow x y, h => by
    have hx := apply s n h.1
    have hy := apply s n h.2
    unfold Substitution.apply at hx hy ⊢
    simp only [MonoType.walk, hx, hy, Outcome.ok_bind]
    rfl

theorem size_le {v : TypeVar} : ∀ {t : MonoType}, t.Plain → v ∈ t.free_vars →
    (σ v).size ≤ (t.subst σ).size
  | .Var w, _, hv => by
    simp only [MonoType.free_vars, mem_singleton] at hv
    rw [hv]
    exact le_refl _
  | .Con _, _, hv => by simp [MonoType.free_vars] at hv
  | .Arrow x y, h, hv => by
    simp only [MonoType.free_vars, mem_append] at hv
    simp only [MonoType.subst, MonoType.size]
    rcases hv with hv | hv
    · have := size_le h.1 hv
      omega
    · have := size_le h.2 hv
      omega

/-- A variable in a plain type has no substitution that makes it equal to the type. -/
theorem no_unifier {v : TypeVar} (h : t.Plain) (hv : v ∈ t.free_vars) (hne : t ≠ .Var v)
    (σ : TypeVar → MonoType) : σ v ≠ t.subst σ := by
  intro he
  match t with
  | .Var w =>
    simp only [MonoType.free_vars, mem_singleton] at hv
    exact hne (by rw [hv])
  | .Con _ => simp [MonoType.free_vars] at hv
  | .Arrow x y =>
    have hsz := congrArg MonoType.size he
    simp only [MonoType.free_vars, mem_append] at hv
    simp only [MonoType.subst, MonoType.size] at hsz
    rcases hv with hv | hv
    · have : (σ v).size ≤ (x.subst σ).size := size_le h.1 hv
      omega
    · have : (σ v).size ≤ (y.subst σ).size := size_le h.2 hv
      omega

end MonoType.Plain

/-! ## Most general unifiers -/

/-- `s` unifies the two types, every unifier absorbs it, and it binds variables of
the two types to plain types over the variables it leaves free. -/
structure PlainMgu (s : Substitution) (a b : MonoType) : Prop where
  plain : ∀ e ∈ s.entries, e.2.Plain
  dom : ∀ v t, s.lookup v = some t → v ∈ a.free_vars ++ b.free_vars
  ran : ∀ v t u, s.lookup v = some t → u ∈ t.free_vars →
    u ∈ a.free_vars ++ b.free_vars ∧ s.lookup u = none
  unifies : a.subst s.image = b.subst s.image
  absorbs : ∀ σ : TypeVar → MonoType, a.subst σ = b.subst σ → ∀ v, (s.image v).subst σ = σ v

namespace PlainMgu

theorem image_plain (h : PlainMgu s a b) (v : TypeVar) : (s.image v).Plain := by
  rcases hb : s.lookup v with _ | t
  · rw [image_unbound hb]
    trivial
  · rw [image_bound hb]
    exact h.plain _ (mem_of_lookup hb)

/-- The variables left after the substitution. -/
theorem mem_image (h : PlainMgu s a b) {v u : TypeVar} (hu : u ∈ (s.image v).free_vars) :
    s.lookup u = none ∧ (u = v ∨ u ∈ a.free_vars ++ b.free_vars) := by
  rcases hb : s.lookup v with _ | t
  · rw [image_unbound hb] at hu
    simp only [MonoType.free_vars, mem_singleton] at hu
    exact ⟨by rw [hu, hb], .inl hu⟩
  · rw [image_bound hb] at hu
    exact ⟨(h.ran v t u hb hu).2, .inr (h.ran v t u hb hu).1⟩

theorem refl (a : MonoType) : PlainMgu .empty a a where
  plain e h := by simp [Substitution.empty] at h
  dom v t h := by simp at h
  ran v t u h := by simp at h
  unifies := rfl
  absorbs σ _ v := rfl

theorem symm (h : PlainMgu s a b) : PlainMgu s b a where
  plain := h.plain
  dom v t hv := by simpa [or_comm] using h.dom v t hv
  ran v t u hv hu := ⟨by simpa [or_comm] using (h.ran v t u hv hu).1, (h.ran v t u hv hu).2⟩
  unifies := h.unifies.symm
  absorbs σ hσ := h.absorbs σ hσ.symm

theorem singleton {v : TypeVar} (ht : t.Plain) (hv : v ∉ t.free_vars) :
    PlainMgu (.singleton v t) (.Var v) t := by
  have hlook : ∀ w u, (Substitution.singleton v t).lookup w = some u → w = v ∧ u = t := by
    intro w u hw
    rw [lookup_singleton] at hw
    split at hw
    · cases hw
      exact ⟨by assumption, rfl⟩
    · cases hw
  have hself : (Substitution.singleton v t).image v = t := by
    simp [Substitution.image, lookup_singleton]
  have hother : ∀ u, u ≠ v → (Substitution.singleton v t).image u = .Var u := by
    intro u hu
    simp [Substitution.image, lookup_singleton, hu]
  refine ⟨?_, ?_, ?_, ?_, ?_⟩
  · intro e he
    rw [mem_singleton.mp he]
    exact ht
  · intro w u hw
    rw [(hlook w u hw).1]
    simp [MonoType.free_vars]
  · intro w u x hw hx
    rw [(hlook w u hw).2] at hx
    refine ⟨List.mem_append_right _ hx, ?_⟩
    rw [lookup_singleton, if_neg]
    rintro rfl
    exact hv hx
  · have : t.subst (Substitution.singleton v t).image = t := by
      refine ht.subst_self ?_
      intro u hu
      refine hother u ?_
      rintro rfl
      exact hv hu
    rw [this]
    exact hself
  · intro σ hσ w
    by_cases hw : w = v
    · rw [hw, hself]
      exact hσ.symm
    · rw [hother w hw]
      rfl

end PlainMgu

/-! ## Composition -/

/-- What `compose` gives when the bindings of `s₁` are plain. -/
def composed (s₂ s₁ : Substitution) : Substitution :=
  ⟨s₂.entries.foldr (fun e acc => Assoc.insert acc e.1 e.2)
    (s₁.entries.map fun e => (e.1, e.2.subst s₂.image))⟩

theorem compose_plain (s₂ : Substitution) (n : Nat) (h : ∀ e ∈ s₁.entries, e.2.Plain) :
    s₂.compose n s₁ = .ok (composed s₂ s₁) := by
  have hmap : ∀ es : List (TypeVar × MonoType), (∀ e ∈ es, e.2.Plain) →
      (es.mapM fun e => do let ty ← s₂.apply n e.2; return (e.1, ty))
        = (.ok (es.map fun e => (e.1, e.2.subst s₂.image)) : Outcome _) := by
    intro es hes
    induction es with
    | nil => rfl
    | cons e es ih =>
      rw [List.mapM_cons, (hes e List.mem_cons_self).apply s₂ n, ih fun d hd => hes d (.tail _ hd)]
      rfl
  unfold Substitution.compose
  rw [hmap s₁.entries h]
  rfl

theorem lookup_composed_plain (s₂ s₁ : Substitution) (v : TypeVar) :
    (composed s₂ s₁).lookup v = (s₂.lookup v).or ((s₁.lookup v).map (MonoType.subst s₂.image)) := by
  unfold composed Substitution.lookup
  rw [lookup_foldr_insert, lookup_map]

/-- Where no variable is bound twice, one substitution comes after the other. -/
theorem image_composed (h : ∀ v t, s₁.lookup v = some t → s₂.lookup v = none) (v : TypeVar) :
    (composed s₂ s₁).image v = (s₁.image v).subst s₂.image := by
  unfold Substitution.image
  rw [lookup_composed_plain]
  rcases h1 : s₁.lookup v with _ | t
  · simp only [Option.map_none, Option.or_none, Option.getD_none, MonoType.subst]
  · rw [h v t h1]
    rfl

theorem composed_entries (h₁ : ∀ e ∈ s₁.entries, e.2.Plain) (h₂ : ∀ e ∈ s₂.entries, e.2.Plain)
    (himg : ∀ v, (s₂.image v).Plain) : ∀ e ∈ (composed s₂ s₁).entries, e.2.Plain := by
  intro e he
  rcases mem_foldr_insert he with he | he
  · exact h₂ e he
  · obtain ⟨d, hd, rfl⟩ := List.mem_map.mp he
    exact (h₁ d hd).subst fun v _ => himg v

variable {a₁ a₂ b₁ b₂ : MonoType} {v : TypeVar}

/-- What is left of the second components under a unifier of the first ones. -/
theorem PlainMgu.mem_rest (ha₂ : a₂.Plain) (hb₂ : b₂.Plain) (h₁ : PlainMgu s₁ a₁ b₁) (v : TypeVar)
    (hv : v ∈ (a₂.subst s₁.image).free_vars ++ (b₂.subst s₁.image).free_vars) :
    s₁.lookup v = none ∧
      v ∈ (Arrow a₁ a₂).free_vars ++ (Arrow b₁ b₂).free_vars := by
  simp only [mem_append, ha₂.mem_subst, hb₂.mem_subst] at hv
  simp only [MonoType.free_vars, mem_append]
  rcases hv with ⟨w, hw, hvw⟩ | ⟨w, hw, hvw⟩
  all_goals
    obtain ⟨hn, hm⟩ := h₁.mem_image hvw
    refine ⟨hn, ?_⟩
    rcases hm with rfl | hm
    · tauto
    · rcases mem_append.mp hm with hm | hm <;> tauto

/-- The two components of an arrow, one after the other. -/
theorem PlainMgu.arrow {a₁ a₂ b₁ b₂ : MonoType} (ha₁ : a₁.Plain) (ha₂ : a₂.Plain) (hb₁ : b₁.Plain)
    (hb₂ : b₂.Plain) (h₁ : PlainMgu s₁ a₁ b₁)
    (h₂ : PlainMgu s₂ (a₂.subst s₁.image) (b₂.subst s₁.image)) :
    PlainMgu (composed s₂ s₁) (.Arrow a₁ a₂) (.Arrow b₁ b₂) := by
  have hV := h₁.mem_rest ha₂ hb₂
  have hlift : ∀ v ∈ a₁.free_vars ++ b₁.free_vars,
      v ∈ (Arrow a₁ a₂).free_vars ++ (Arrow b₁ b₂).free_vars := by
    intro v hv
    simp only [MonoType.free_vars, mem_append] at hv ⊢
    tauto
  have honce : ∀ v t, s₁.lookup v = some t → s₂.lookup v = none := by
    intro v t h1
    rcases hb : s₂.lookup v with _ | t'
    · rfl
    · rw [(hV v (h₂.dom v t' hb)).1] at h1
      cases h1
  have himg := image_composed honce
  refine ⟨composed_entries h₁.plain h₂.plain h₂.image_plain, ?_, ?_, ?_, ?_⟩
  · intro v t hv
    rw [lookup_composed_plain] at hv
    rcases hb : s₂.lookup v with _ | t'
    · rw [hb, Option.none_or, Option.map_eq_some_iff] at hv
      obtain ⟨t₁, ht₁, -⟩ := hv
      exact hlift v (h₁.dom v t₁ ht₁)
    · exact (hV v (h₂.dom v t' hb)).2
  · intro v t u hv hu
    rw [lookup_composed_plain] at hv ⊢
    rcases hb : s₂.lookup v with _ | t'
    · rw [hb, Option.none_or, Option.map_eq_some_iff] at hv
      obtain ⟨t₁, ht₁, rfl⟩ := hv
      obtain ⟨w, hw, huw⟩ := (h₁.plain _ (mem_of_lookup ht₁)).mem_subst.mp hu
      obtain ⟨hwV, hw1⟩ := h₁.ran v t₁ w ht₁ hw
      obtain ⟨hu2, hu⟩ := h₂.mem_image huw
      rw [hu2]
      rcases hu with rfl | hu
      · exact ⟨hlift u hwV, by rw [hw1]; rfl⟩
      · exact ⟨(hV u hu).2, by rw [(hV u hu).1]; rfl⟩
    · rw [hb] at hv
      cases hv
      obtain ⟨huV, hu2⟩ := h₂.ran v t u hb hu
      exact ⟨(hV u huV).2, by rw [hu2, (hV u huV).1]; rfl⟩
  · have hs : ∀ t : MonoType, t.Plain →
        t.subst (composed s₂ s₁).image = (t.subst s₁.image).subst s₂.image := by
      intro t ht
      rw [ht.subst_subst]
      exact t.subst_congr fun v _ => himg v
    simp only [MonoType.subst]
    rw [hs a₁ ha₁, hs b₁ hb₁, hs a₂ ha₂, hs b₂ hb₂, h₁.unifies, h₂.unifies]
  · intro σ hσ v
    simp only [MonoType.subst, Arrow.injEq] at hσ
    have h1 := h₁.absorbs σ hσ.1
    have hs : ∀ t : MonoType, t.Plain → (t.subst s₁.image).subst σ = t.subst σ := by
      intro t ht
      rw [ht.subst_subst]
      exact t.subst_congr fun v _ => h1 v
    have h2 := h₂.absorbs σ (by rw [hs a₂ ha₂, hs b₂ hb₂, hσ.2])
    rw [himg, (h₁.image_plain v).subst_subst]
    calc (s₁.image v).subst (fun w => (s₂.image w).subst σ)
        = (s₁.image v).subst σ := (s₁.image v).subst_congr fun w _ => h2 w
      _ = σ v := h1 v

/-! ## The calls -/

/-- With enough fuel the call comes back: with a most general unifier, or with an
error where there is none. -/
def Decided (a b : MonoType) : Prop :=
  ∃ N, (∃ s, (∀ n ≥ N, ∀ g, unify_with_fresh n a b g = .ok (s, g)) ∧ PlainMgu s a b) ∨
    ∃ e, (∀ n ≥ N, ∀ g, unify_with_fresh n a b g = .error (.err e g)) ∧
      ∀ σ : TypeVar → MonoType, a.subst σ ≠ b.subst σ

theorem exists_pred {N : Nat} (h : n ≥ N + 1) : ∃ k, n = k + 1 ∧ k ≥ N :=
  ⟨n - 1, by omega, by omega⟩

theorem decided_left (ht : t.Plain) : Decided (.Var v) t := by
  by_cases he : t = .Var v
  · subst he
    refine ⟨1, .inl ⟨.empty, ?_, PlainMgu.refl _⟩⟩
    intro n hn g
    obtain ⟨k, rfl, -⟩ := exists_pred hn
    simp [unify_with_fresh]
  · by_cases hv : v ∈ t.free_vars
    · refine ⟨1, .inr ⟨.OccursCheck v t, ?_, fun σ => ht.no_unifier hv he σ⟩⟩
      intro n hn g
      obtain ⟨k, rfl, -⟩ := exists_pred hn
      simp [unify_with_fresh, he, bind, (occurs_check_iff v t).mpr hv]
    · refine ⟨1, .inl ⟨.singleton v t, ?_, PlainMgu.singleton ht hv⟩⟩
      intro n hn g
      obtain ⟨k, rfl, -⟩ := exists_pred hn
      have hocc : occurs_check v t = false := by
        rw [Bool.eq_false_iff]
        exact fun h => hv ((occurs_check_iff v t).mp h)
      simp [unify_with_fresh, he, bind, hocc]

theorem decided_right (ht : t.Plain) (hne : ∀ w, t ≠ .Var w) : Decided t (.Var v) := by
  have hcall : ∀ k g, unify_with_fresh (k + 1) t (.Var v) g = bind v t g := by
    intro k g
    cases t <;> first | rfl | exact absurd rfl (hne _)
  by_cases hv : v ∈ t.free_vars
  · refine ⟨1, .inr ⟨.OccursCheck v t, ?_, fun σ h => ht.no_unifier hv (hne v) σ h.symm⟩⟩
    intro n hn g
    obtain ⟨k, rfl, -⟩ := exists_pred hn
    simp [hcall, bind, (occurs_check_iff v t).mpr hv]
  · refine ⟨1, .inl ⟨.singleton v t, ?_, (PlainMgu.singleton ht hv).symm⟩⟩
    intro n hn g
    obtain ⟨k, rfl, -⟩ := exists_pred hn
    have hocc : occurs_check v t = false := by
      rw [Bool.eq_false_iff]
      exact fun h => hv ((occurs_check_iff v t).mp h)
    simp [hcall, bind, hocc]

theorem decided_mismatch (hcall : ∀ k g, unify_with_fresh (k + 1) a b g = .error (.err (.Mismatch a b) g))
    (h : ∀ σ : TypeVar → MonoType, a.subst σ ≠ b.subst σ) : Decided a b := by
  refine ⟨1, .inr ⟨.Mismatch a b, ?_, h⟩⟩
  intro n hn g
  obtain ⟨k, rfl, -⟩ := exists_pred hn
  exact hcall k g

/-- An arrow is decided when its first components are, and the second ones are
under whatever unifies the first. -/
theorem decided_arrow (ha : (Arrow a₁ a₂).Plain) (hb : (Arrow b₁ b₂).Plain) (h₁ : Decided a₁ b₁)
    (h₂ : ∀ s₁, PlainMgu s₁ a₁ b₁ → Decided (a₂.subst s₁.image) (b₂.subst s₁.image)) :
    Decided (.Arrow a₁ a₂) (.Arrow b₁ b₂) := by
  obtain ⟨N₁, ⟨s₁, hc₁, hm₁⟩ | ⟨e, hc₁, hno⟩⟩ := h₁
  · obtain ⟨N₂, ⟨s₂, hc₂, hm₂⟩ | ⟨e, hc₂, hno⟩⟩ := h₂ s₁ hm₁
    · refine ⟨max N₁ N₂ + 1, .inl ⟨composed s₂ s₁, ?_, hm₁.arrow ha.1 ha.2 hb.1 hb.2 hm₂⟩⟩
      intro n hn g
      obtain ⟨k, rfl, hk⟩ := exists_pred hn
      simp only [unify_with_fresh, hc₁ k (by omega) g, Bind.bind, Except.bind,
        ha.2.apply s₁ k, hb.2.apply s₁ k, call, hc₂ k (by omega) g, compose_plain s₂ k hm₁.plain]
      rfl
    · refine ⟨max N₁ N₂ + 1, .inr ⟨e, ?_, ?_⟩⟩
      · intro n hn g
        obtain ⟨k, rfl, hk⟩ := exists_pred hn
        simp only [unify_with_fresh, hc₁ k (by omega) g, Bind.bind, Except.bind,
          ha.2.apply s₁ k, hb.2.apply s₁ k, call, hc₂ k (by omega) g]
      · intro σ hσ
        simp only [MonoType.subst, Arrow.injEq] at hσ
        have habs := hm₁.absorbs σ hσ.1
        refine hno σ ?_
        rw [ha.2.subst_subst, hb.2.subst_subst, a₂.subst_congr fun v _ => habs v,
          b₂.subst_congr fun v _ => habs v, hσ.2]
  · refine ⟨N₁ + 1, .inr ⟨e, ?_, ?_⟩⟩
    · intro n hn g
      obtain ⟨k, rfl, hk⟩ := exists_pred hn
      simp only [unify_with_fresh, hc₁ k hk g, Bind.bind, Except.bind]
    · intro σ hσ
      simp only [MonoType.subst, Arrow.injEq] at hσ
      exact hno σ hσ.1

/-- The second components under a unifier that binds a variable have one variable
fewer; otherwise they stay and are smaller than the arrows. -/
theorem card_lt (ha₂ : a₂.Plain) (hb₂ : b₂.Plain)
    (h₁ : PlainMgu s₁ a₁ b₁) (hv : s₁.lookup v = some t) :
    ((a₂.subst s₁.image).free_vars ++ (b₂.subst s₁.image).free_vars).toFinset.card <
      ((Arrow a₁ a₂).free_vars ++ (Arrow b₁ b₂).free_vars).toFinset.card := by
  have hsub := h₁.mem_rest ha₂ hb₂
  refine Finset.card_lt_card ((Finset.ssubset_iff_of_subset ?_).mpr ⟨v, ?_, ?_⟩)
  · intro u hu
    rw [mem_toFinset] at hu ⊢
    exact (hsub u hu).2
  · rw [mem_toFinset]
    have := h₁.dom v t hv
    simp only [MonoType.free_vars, mem_append] at this ⊢
    tauto
  · rw [mem_toFinset]
    intro hm
    rw [(hsub v hm).1] at hv
    cases hv

/-- A call on plain types is decided: by induction on the number of variables, and
for as many variables on the size of the types. -/
theorem plain_decided : ∀ (m k : Nat) {a b : MonoType}, a.Plain → b.Plain →
    (a.free_vars ++ b.free_vars).toFinset.card ≤ m → a.size + b.size ≤ k → Decided a b := by
  intro m
  induction m using Nat.strong_induction_on with
  | _ m ihm =>
    intro k
    induction k with
    | zero =>
      intro a b ha hb hm hk
      have := a.size_pos
      omega
    | succ k ihk =>
      intro a b ha hb hm hk
      match a, b, ha, hb with
      | .Var v, b, _, hb => exact decided_left hb
      | .Con c, .Var v, ha, _ => exact decided_right ha (by simp)
      | .Arrow a₁ a₂, .Var v, ha, _ => exact decided_right ha (by simp)
      | .Con c, .Con d, _, _ =>
        by_cases hcd : c = d
        · subst hcd
          refine ⟨1, .inl ⟨.empty, ?_, PlainMgu.refl _⟩⟩
          intro n hn g
          obtain ⟨k, rfl, -⟩ := exists_pred hn
          simp [unify_with_fresh]
        · refine decided_mismatch (by simp [unify_with_fresh, hcd]) ?_
          intro σ hσ
          simp only [MonoType.subst, MonoType.Con.injEq] at hσ
          exact hcd hσ
      | .Con c, .Arrow b₁ b₂, _, _ =>
        exact decided_mismatch (by simp [unify_with_fresh]) (by simp [MonoType.subst])
      | .Arrow a₁ a₂, .Con d, _, _ =>
        exact decided_mismatch (by simp [unify_with_fresh]) (by simp [MonoType.subst])
      | .Arrow a₁ a₂, .Arrow b₁ b₂, ha, hb =>
        simp only [MonoType.size] at hk
        have hsub₁ : (a₁.free_vars ++ b₁.free_vars).toFinset ⊆
            ((Arrow a₁ a₂).free_vars ++ (Arrow b₁ b₂).free_vars).toFinset := by
          intro v hv
          simp only [MonoType.free_vars, mem_toFinset, mem_append] at hv ⊢
          tauto
        have hsub₂ : (a₂.free_vars ++ b₂.free_vars).toFinset ⊆
            ((Arrow a₁ a₂).free_vars ++ (Arrow b₁ b₂).free_vars).toFinset := by
          intro v hv
          simp only [MonoType.free_vars, mem_toFinset, mem_append] at hv ⊢
          tauto
        refine decided_arrow ha hb
          (ihk ha.1 hb.1 ((Finset.card_le_card hsub₁).trans hm) (by omega)) ?_
        intro s₁ h₁
        -- either the first components bind a variable, or the second ones are as they were
        by_cases hbind : ∃ v t, s₁.lookup v = some t
        · obtain ⟨v, t, hv⟩ := hbind
          have hlt := card_lt ha.2 hb.2 h₁ hv
          exact ihm _ (lt_of_lt_of_le hlt hm) _ (ha.2.subst fun v _ => h₁.image_plain v)
            (hb.2.subst fun v _ => h₁.image_plain v) (le_refl _) (le_refl _)
        · have hid : ∀ v, s₁.image v = .Var v := by
            intro v
            refine image_unbound ?_
            rcases hb : s₁.lookup v with _ | t
            · rfl
            · exact absurd ⟨v, t, hb⟩ hbind
          rw [ha.2.subst_self fun v _ => hid v, hb.2.subst_self fun v _ => hid v]
          exact ihk ha.2 hb.2 ((Finset.card_le_card hsub₂).trans hm) (by omega)

/-! ## The substitution that comes back -/

theorem RowKind.splice_plain (k : RowKind) (v : TypeVar) (ht : t.Plain) :
    (∃ w, t = .Var w ∧ k.splice v t = .RowVar w) ∨
      ((∀ w, t ≠ .Var w) ∧ k.splice v t = .RowVar v) := by
  match t, ht with
  | .Var w, _ => exact .inl ⟨w, rfl, RowKind.splice_var k v w⟩
  | .Con _, _ => exact .inr ⟨by simp, by cases k <;> rfl⟩
  | .Arrow _ _, _ => exact .inr ⟨by simp, by cases k <;> rfl⟩

mutual

/-- A substitution that binds plain types enters no row. -/
theorem apply_of_plain (hs : ∀ e ∈ s.entries, e.2.Plain) (n : Nat) (t : MonoType) :
    t.walk s (s.apply_rows n) = .ok (t.subst s.image) := by
  match t with
  | .Var _ => rfl
  | .Con _ => rfl
  | .Arrow a b =>
    rw [MonoType.walk, apply_of_plain hs n a, apply_of_plain hs n b]
    rfl
  | .Record r =>
    rw [MonoType.walk, apply_row_of_plain hs n .record r]
    rfl
  | .EffectRow r =>
    rw [MonoType.walk, apply_row_of_plain hs n .effect r]
    rfl
  | .Typed v e =>
    rw [MonoType.walk, apply_row_of_plain hs n .record v, apply_row_of_plain hs n .effect e]
    rfl

theorem apply_row_of_plain (hs : ∀ e ∈ s.entries, e.2.Plain) (n : Nat) (k : RowKind) (r : RowType) :
    r.walk s (s.apply_rows n) k = .ok (r.subst s.image k) := by
  match r with
  | .Empty => rfl
  | .RowVar v =>
    rw [RowType.walk, RowType.subst]
    rcases hb : s.entries.lookup v with _ | t
    · rw [image_unbound hb, RowKind.splice_var]
      rfl
    · rw [image_bound hb]
      match t, hs _ (mem_of_lookup hb) with
      | .Var w, _ => cases k <;> rfl
      | .Con _, _ => cases k <;> rfl
      | .Arrow _ _, _ => cases k <;> rfl
  | .Extend f ty rest =>
    rw [RowType.walk, apply_of_plain hs n ty, apply_row_of_plain hs n k rest]
    rfl

end

mutual

/-- Where no bound variable is left in the bindings, a second substitution
changes nothing. -/
theorem MonoType.subst_twice (hp : ∀ v, (s.image v).Plain)
    (hr : ∀ v, ∀ u ∈ (s.image v).free_vars, s.lookup u = none) (t : MonoType) :
    (t.subst s.image).subst s.image = t.subst s.image := by
  match t with
  | .Var v => exact (hp v).subst_self fun u hu => image_unbound (hr v u hu)
  | .Con _ => rfl
  | .Arrow a b => rw [MonoType.subst, MonoType.subst, a.subst_twice hp hr, b.subst_twice hp hr]
  | .Record r => rw [MonoType.subst, MonoType.subst, r.subst_twice hp hr .record]
  | .EffectRow r => rw [MonoType.subst, MonoType.subst, r.subst_twice hp hr .effect]
  | .Typed v e =>
    rw [MonoType.subst, MonoType.subst, v.subst_twice hp hr .record, e.subst_twice hp hr .effect]

theorem RowType.subst_twice (hp : ∀ v, (s.image v).Plain)
    (hr : ∀ v, ∀ u ∈ (s.image v).free_vars, s.lookup u = none) (k : RowKind) (r : RowType) :
    (r.subst s.image k).subst s.image k = r.subst s.image k := by
  match r with
  | .Empty => rfl
  | .RowVar v =>
    rw [RowType.subst]
    obtain ⟨w, hw, hsp⟩ | ⟨hne, hsp⟩ := k.splice_plain v (hp v)
    · -- the tail became a variable that is not bound
      have hn : s.lookup w = none := hr v w (by rw [hw]; simp [MonoType.free_vars])
      rw [hsp, RowType.subst, image_unbound hn, RowKind.splice_var]
    · rw [hsp, RowType.subst, hsp]
  | .Extend f ty rest =>
    rw [RowType.subst, RowType.subst_cons, ty.subst_twice hp hr, rest.subst_twice hp hr k]

end

/-- `u` gives the two types the same type. -/
def Unifies (u : Substitution) (a b : MonoType) : Prop :=
  ∃ n t, u.apply n a = .ok t ∧ u.apply n b = .ok t

def Idempotent (s : Substitution) : Prop :=
  ∀ n t, ∃ t', s.apply n t = .ok t' ∧ s.apply n t' = .ok t'

/-- What `u` gives a plain type, some substitution gives what `s` gives it. -/
def FactorsThrough (u s : Substitution) : Prop :=
  ∃ r : Substitution, ∀ n t, t.Plain →
    ∃ t' t'', s.apply n t = .ok t' ∧ r.apply n t' = .ok t'' ∧ u.apply n t = .ok t''

theorem unifies_iff (ha : a.Plain) (hb : b.Plain) (u : Substitution) :
    Unifies u a b ↔ a.subst u.image = b.subst u.image := by
  constructor
  · rintro ⟨n, t, h₁, h₂⟩
    rw [ha.apply] at h₁
    rw [hb.apply] at h₂
    cases h₁
    exact (Except.ok.inj h₂).symm
  · intro h
    exact ⟨0, _, ha.apply u 0, by rw [hb.apply, h]⟩

theorem PlainMgu.idempotent (h : PlainMgu s a b) : Idempotent s := by
  intro n t
  refine ⟨t.subst s.image, apply_of_plain h.plain n t, ?_⟩
  have htwice := MonoType.subst_twice h.image_plain (fun v u hu => (h.mem_image hu).1) t
  have := apply_of_plain h.plain n (t.subst s.image)
  rw [htwice] at this
  exact this

theorem PlainMgu.factors (ha : a.Plain) (hb : b.Plain) (h : PlainMgu s a b) {u : Substitution}
    (hu : Unifies u a b) : FactorsThrough u s := by
  refine ⟨u, ?_⟩
  intro n t ht
  refine ⟨t.subst s.image, t.subst u.image, ht.apply s n, ?_, ht.apply u n⟩
  rw [(ht.subst fun v _ => h.image_plain v).apply, ht.subst_subst]
  have habs := h.absorbs u.image ((unifies_iff ha hb u).mp hu)
  rw [t.subst_congr fun v _ => habs v]

/-- On types without rows, `unify` comes back; it gives a substitution just when the
types have a unifier, and that one is idempotent and most general. -/
theorem unify_most_general (ha : a.Plain) (hb : b.Plain) :
    ∃ N r, (∀ n ≥ N, unify n a b = r) ∧
      ((∃ s, r = .ok (s, .new)) ∨ ∃ e, r = .error (.err e .new)) ∧
      ((∃ s g, r = .ok (s, g)) ↔ ∃ u, Unifies u a b) ∧
      ∀ s g, r = .ok (s, g) →
        Idempotent s ∧ Unifies s a b ∧ ∀ u, Unifies u a b → FactorsThrough u s := by
  obtain ⟨N, ⟨s, hcall, hm⟩ | ⟨e, hcall, hno⟩⟩ := plain_decided _ _ ha hb (le_refl _) (le_refl _)
  · have hs : Unifies s a b := (unifies_iff ha hb s).mpr hm.unifies
    refine ⟨N, .ok (s, .new), fun n hn => hcall n hn .new, .inl ⟨s, rfl⟩, ?_, ?_⟩
    · exact ⟨fun _ => ⟨s, hs⟩, fun _ => ⟨s, .new, rfl⟩⟩
    · intro s' g h
      cases h
      exact ⟨hm.idempotent, hs, fun u hu => hm.factors ha hb hu⟩
  · refine ⟨N, .error (.err e .new), fun n hn => hcall n hn .new, .inr ⟨e, rfl⟩, ?_, ?_⟩
    · constructor
      · rintro ⟨s, g, h⟩
        cases h
      · rintro ⟨u, hu⟩
        exact absurd ((unifies_iff ha hb u).mp hu) (hno u.image)
    · intro s g h
      cases h

/-- A variable on both sides of an arrow. -/
theorem arrow_chain_most_general :
    ∃ N r, (∀ n ≥ N, unify n (.Arrow (.Var 0) (.Var 1)) (.Arrow (.Var 1) (.Con "Int")) = r) ∧
      ((∃ s, r = .ok (s, .new)) ∨ ∃ e, r = .error (.err e .new)) ∧
      ((∃ s g, r = .ok (s, g)) ↔
        ∃ u, Unifies u (.Arrow (.Var 0) (.Var 1)) (.Arrow (.Var 1) (.Con "Int"))) ∧
      ∀ s g, r = .ok (s, g) → Idempotent s ∧
        Unifies s (.Arrow (.Var 0) (.Var 1)) (.Arrow (.Var 1) (.Con "Int")) ∧
        ∀ u, Unifies u (.Arrow (.Var 0) (.Var 1)) (.Arrow (.Var 1) (.Con "Int")) →
          FactorsThrough u s :=
  unify_most_general (by simp [MonoType.Plain]) (by simp [MonoType.Plain])

end paideia_as_shell_hm
