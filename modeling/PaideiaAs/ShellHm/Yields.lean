-- What a run of the unifier yields: bindings that keep the kinds and have an
-- end, over the variables of its two types and those minted on the way. One
-- run after another yields the composition of the two.
import PaideiaAs.ShellHm.Unify

open Assoc

namespace paideia_as_shell_hm

open RowType Substitution

variable {κ : TypeVar → Kind} {s s₁ s₂ : Substitution}
  {g g₁ g₂ : FreshVarGen} {V : List TypeVar}

/-- A variable of the list, or one minted since `g`. -/
def Known (V : List TypeVar) (g g' : FreshVarGen) (v : TypeVar) : Prop :=
  v ∈ V ∨ (g.next ≤ v ∧ v < g'.next)

/-- What a run from `g` to `g'` over the variables `V` gives back. -/
structure Yields (κ : TypeVar → Kind) (V : List TypeVar) (g g' : FreshVarGen) (s : Substitution) :
    Prop where
  settled : s.Settled κ
  le : g.next ≤ g'.next
  dom : ∀ v t, s.lookup v = some t → Known V g g' v
  ran : ∀ v t u, s.lookup v = some t → u ∈ t.free_vars → Known V g g' u

/-- A type over the variables, which it uses as `κ` says. -/
structure MonoType.Over (κ : TypeVar → Kind) (V : List TypeVar) (t : MonoType) : Prop where
  kinded : t.Kinded κ
  vars : ∀ v ∈ t.free_vars, v ∈ V

variable {v : TypeVar}

theorem Known.lt (h : Known V g g₁ v) (hV : ∀ v ∈ V, v < g.next)
    (hg : g.next ≤ g₁.next) : v < g₁.next := by
  rcases h with h | h
  · exact lt_of_lt_of_le (hV v h) hg
  · exact h.2

theorem Known.mono (h : Known V g g₁ v) (hg : g₁.next ≤ g₂.next) : Known V g g₂ v := by
  rcases h with h | h
  · exact .inl h
  · exact .inr ⟨h.1, lt_of_lt_of_le h.2 hg⟩

theorem Known.sub {W : List TypeVar} (h : Known V g g₁ v) (hVW : ∀ v ∈ V, v ∈ W) :
    Known W g g₁ v := by
  rcases h with h | h
  · exact .inl (hVW v h)
  · exact .inr h

theorem Known.trans {W : List TypeVar} (h : Known W g₁ g₂ v)
    (hW : ∀ v ∈ W, Known V g g₁ v) (hg : g.next ≤ g₁.next) (hg₁ : g₁.next ≤ g₂.next) :
    Known V g g₂ v := by
  rcases h with h | h
  · exact (hW v h).mono hg₁
  · exact .inr ⟨le_trans hg h.1, h.2⟩

namespace Yields

theorem empty (κ : TypeVar → Kind) (V : List TypeVar) (g : FreshVarGen) :
    Yields κ V g g Substitution.empty where
  settled := ⟨fun v t h => by simp at h, ⟨fun _ => 0, fun v t u h => by simp at h⟩,
    fun v t u _ h => by simp at h⟩
  le := le_refl _
  dom := fun v t h => by simp at h
  ran := fun v t u h => by simp at h

theorem sub {W : List TypeVar} (h : Yields κ V g g₁ s) (hVW : ∀ v ∈ V, v ∈ W) : Yields κ W g g₁ s :=
  ⟨h.settled, h.le, fun v t hv => (h.dom v t hv).sub hVW,
    fun v t u hv hu => (h.ran v t u hv hu).sub hVW⟩

variable {v : TypeVar} {t : MonoType} {σ : TypeVar → MonoType}

section

variable (h : Yields κ V g g₁ s)

include h

section

variable (hV : ∀ v ∈ V, v < g.next)

include hV

theorem dom_lt (hv : s.lookup v = some t) : v < g₁.next := (h.dom v t hv).lt hV h.le

theorem unbound_of_le (hv : g₁.next ≤ v) : s.lookup v = none := by
  rcases hb : s.lookup v with _ | t
  · rfl
  · exact absurd (h.dom_lt hV hb) (Nat.not_lt.mpr hv)

omit hV in
theorem known_of_resolved (hσ : s.Resolves κ σ)
    {u : TypeVar} (hv : Known V g g₁ v) (hu : u ∈ (σ v).free_vars) : Known V g g₁ u := by
  obtain rfl | ⟨w, t, hw, hut⟩ := hσ.source h.settled hu
  · exact hv
  · exact h.ran w t u hw hut

end

theorem subst_known (hσ : s.Resolves κ σ) (ht : t.Over κ V) :
    (t.subst σ).Kinded κ ∧
      ∀ u ∈ (t.subst σ).free_vars, Known V g g₁ u ∧ s.lookup u = none := by
  obtain ⟨hk, hvars⟩ := t.kinded_subst ht.kinded (hσ.respects _)
  refine ⟨hk, ?_⟩
  intro u hu
  obtain ⟨w, hw, huw⟩ := hvars u hu
  exact ⟨h.known_of_resolved hσ (.inl (ht.vars w hw)) huw, hσ.done w u huw⟩

end

/-- A run over what the run before it left free goes on from there. -/
theorem apart {W : List TypeVar} (h₁ : Yields κ V g g₁ s₁) (hV : ∀ v ∈ V, v < g.next)
    (h₂ : Yields κ W g₁ g₂ s₂) (hW : ∀ v ∈ W, s₁.lookup v = none) :
    Apart s₂ s₁ ∧ ∀ v t, s₁.lookup v = some t → s₂.lookup v = none := by
  have hknown : ∀ u, Known W g₁ g₂ u → s₁.lookup u = none := by
    rintro u (hu | hu)
    · exact hW u hu
    · exact h₁.unbound_of_le hV hu.1
  refine ⟨fun v t u hv hu => hknown u (h₂.ran v t u hv hu), ?_⟩
  intro v t hv
  rcases hb : s₂.lookup v with _ | t'
  · rfl
  · rw [hknown v (h₂.dom v t' hb)] at hv
    cases hv

/-- Both together bind and hold only what the two runs know. -/
theorem onto {σ₂ : TypeVar → MonoType} (h₁ : Yields κ V g g₁ s₁) (h₂ : s₂.Settled κ)
    (hσ₂ : s₂.Resolves κ σ₂) (hle : g₁.next ≤ g₂.next)
    (hdom : ∀ v t, s₂.lookup v = some t → Known V g g₂ v)
    (hran : ∀ v t u, s₂.lookup v = some t → u ∈ t.free_vars → Known V g g₂ u)
    (hap : Apart s₂ s₁) : Yields κ V g g₂ (s₂.onto σ₂ s₁) := by
  refine ⟨h₁.settled.onto h₂ hσ₂ hap, le_trans h₁.le hle, ?_, ?_⟩
  · intro v t hv
    rcases lookup_onto_some hv with h2 | ⟨t₁, -, h1, -⟩
    · exact hdom v t h2
    · exact (h₁.dom v t₁ h1).mono hle
  · intro v t u hv hu
    rcases lookup_onto_some hv with h2 | ⟨t₁, -, h1, rfl⟩
    · exact hran v t u h2 hu
    · obtain ⟨w, hw, huw⟩ := (t₁.kinded_subst (h₁.settled.binds v t₁ h1).kinded
        (hσ₂.respects _)).2 u hu
      obtain rfl | ⟨x, tx, hx, hux⟩ := hσ₂.source h₂ huw
      · exact (h₁.ran v t₁ u h1 hw).mono hle
      · exact hran x tx u hx hux

end Yields

/-! ## One run after another -/

/-- Types that `σ` makes the same are the same under `σ'`. -/
def Refines (κ : TypeVar → Kind) (σ σ' : TypeVar → MonoType) : Prop :=
  ∀ x y : MonoType, x.Kinded κ → y.Kinded κ → (x.subst σ).Same (y.subst σ) →
    (x.subst σ').Same (y.subst σ')

namespace Yields

variable {a b : MonoType} {σ₁ σ₂ : TypeVar → MonoType}

theorem left_free (h₁ : Yields κ V g g₁ s₁) (hσ₁ : s₁.Resolves κ σ₁) (ha : a.Over κ V)
    (hb : b.Over κ V) : ∀ v ∈ (a.subst σ₁).free_vars ++ (b.subst σ₁).free_vars,
      Known V g g₁ v ∧ s₁.lookup v = none := by
  intro v hv
  rcases List.mem_append.mp hv with hv | hv
  · exact (h₁.subst_known hσ₁ ha).2 v hv
  · exact (h₁.subst_known hσ₁ hb).2 v hv

/-- One unification after another: the second one over the types that the
first one left. -/
theorem after (hV : ∀ v ∈ V, v < g.next) (h₁ : Yields κ V g g₁ s₁) (hσ₁ : s₁.Resolves κ σ₁)
    (ha : a.Over κ V) (hb : b.Over κ V)
    (h₂ : Yields κ ((a.subst σ₁).free_vars ++ (b.subst σ₁).free_vars) g₁ g₂ s₂)
    (hσ₂ : s₂.Resolves κ σ₂) (hsame : ((a.subst σ₁).subst σ₂).Same ((b.subst σ₁).subst σ₂)) :
    Yields κ V g g₂ (s₂.onto σ₂ s₁) ∧ ∃ σ₃, (s₂.onto σ₂ s₁).Resolves κ σ₃ ∧ Refines κ σ₁ σ₃ ∧
      (a.subst σ₃).Same (b.subst σ₃) := by
  have hW := h₁.left_free hσ₁ ha hb
  obtain ⟨hap, honce⟩ := h₁.apart hV h₂ fun v hv => (hW v hv).2
  have hup : ∀ v, Known _ g₁ g₂ v → Known V g g₂ v := fun v hv =>
    hv.trans (fun w hw => (hW w hw).1) h₁.le h₂.le
  have hsubst : ∀ x : MonoType, x.Kinded κ →
      (x.subst σ₁).subst σ₂ = x.subst fun v => (σ₁ v).subst σ₂ := fun x hx =>
    x.subst_subst hx (hσ₁.respects _) fun v _ => hσ₂.respects _
  refine ⟨h₁.onto h₂.settled hσ₂ h₂.le (fun v t hv => hup v (h₂.dom v t hv))
    (fun v t u hv hu => hup u (h₂.ran v t u hv hu)) hap, _,
    Resolves.onto h₁.settled hσ₁ h₂.settled hσ₂ hap honce, ?_, ?_⟩
  · intro x y hx hy hxy
    rw [← hsubst x hx, ← hsubst y hy]
    exact hxy.subst σ₂
  · rw [← hsubst a ha.kinded, ← hsubst b hb.kinded]
    exact hsame

end Yields

end paideia_as_shell_hm
