-- The loop that keeps the best value seen so far. Where "better" is a strict
-- linear order on the values, it ends with the same value in every order of
-- the list.
import Mathlib.Data.List.Perm.Basic

namespace Extremes

variable {α : Type} (better : α → α → Bool)

/-- One turn of the loop: a better value takes the place of the best. -/
def pick : Option α → α → Option α
  | none, v => some v
  | some b, v => if better v b then some v else some b

def best (vs : List α) : Option α := vs.foldl (pick better) none

/-- On the values of `S`, one of two different values is better. -/
structure Linear (S : α → Prop) : Prop where
  irrefl : ∀ a, S a → better a a = false
  trans : ∀ a b c, S a → S b → S c → better a b = true → better b c = true → better a c = true
  total : ∀ a b, S a → S b → better a b = true ∨ a = b ∨ better b a = true

/-- A value of the list that no value of the list is better than. -/
def Unbeaten (vs : List α) (m : α) : Prop := m ∈ vs ∧ ∀ v ∈ vs, better v m = false

variable {better} {S : α → Prop} {vs ws : List α}

section

variable (h : Linear better S)

include h

theorem Linear.flip : Linear (fun a b => better b a) S where
  irrefl := h.irrefl
  trans a b c ha hb hc hab hbc := h.trans c b a hc hb ha hbc hab
  total a b ha hb := h.total b a hb ha |>.imp_right fun hba => hba.imp_left Eq.symm

theorem Linear.congr {other : α → α → Bool} (ho : ∀ a b, S a → S b → better a b = other a b) :
    Linear other S where
  irrefl a ha := ho a a ha ha ▸ h.irrefl a ha
  trans a b c ha hb hc := by
    rw [← ho a b ha hb, ← ho b c hb hc, ← ho a c ha hc]
    exact h.trans a b c ha hb hc
  total a b ha hb := by
    rw [← ho a b ha hb, ← ho b a hb ha]
    exact h.total a b ha hb

omit h in
theorem pick_some (b v : α) : pick better (some b) v = if better v b then some v else some b := rfl

theorem foldl_pick (vs : List α) (b : α) (hS : ∀ v ∈ b :: vs, S v) :
    ∃ m, vs.foldl (pick better) (some b) = some m ∧ Unbeaten better (b :: vs) m := by
  induction vs generalizing b with
  | nil =>
    refine ⟨b, rfl, List.mem_singleton_self b, ?_⟩
    intro v hv
    rw [List.mem_singleton.mp hv]
    exact h.irrefl b (hS b (.head _))
  | cons v vs ih =>
    obtain ⟨hb, hv, hvs⟩ : S b ∧ S v ∧ ∀ w ∈ vs, S w := by simpa using hS
    rw [List.foldl_cons, pick_some]
    split
    · rename_i hvb
      obtain ⟨m, hm, hmem, hall⟩ := ih v (by simpa using ⟨hv, hvs⟩)
      refine ⟨m, hm, .tail _ hmem, ?_⟩
      have hSm : S m := hS m (.tail _ hmem)
      intro w hw
      rcases List.mem_cons.mp hw with rfl | hw
      · by_contra hwm
        have hvm := h.trans v w m hv hb hSm hvb (by simpa using hwm)
        rw [hall v List.mem_cons_self] at hvm
        cases hvm
      · exact hall w hw
    · rename_i hvb
      obtain ⟨m, hm, hmem, hall⟩ := ih b (by simpa using ⟨hb, hvs⟩)
      have hmem' : m ∈ b :: v :: vs := by
        rcases List.mem_cons.mp hmem with rfl | hm'
        · exact .head _
        · exact .tail _ (.tail _ hm')
      refine ⟨m, hm, hmem', ?_⟩
      have hSm : S m := hS m hmem'
      intro w hw
      rcases List.mem_cons.mp hw with rfl | hw
      · exact hall w (.head _)
      · rcases List.mem_cons.mp hw with rfl | hw
        · by_contra hwm
          -- `b` would be better than the end of the loop as well
          rcases h.total w b hv hb with hwb | rfl | hbw
          · exact hvb hwb
          · exact hwm (hall w (.head _))
          · have hbm := h.trans b w m hb hv hSm hbw (by simpa using hwm)
            rw [hall b List.mem_cons_self] at hbm
            cases hbm
        · exact hall w (.tail _ hw)

omit h in
theorem best_eq_none : best better vs = none ↔ vs = [] := by
  cases vs with
  | nil => simp [best]
  | cons v vs =>
    have hsome : ∀ (l : List α) (b : α), (l.foldl (pick better) (some b)).isSome := by
      intro l
      induction l with
      | nil => exact fun _ => rfl
      | cons w l ih =>
        intro b
        rw [List.foldl_cons, pick_some]
        split <;> exact ih _
    have h := hsome vs v
    refine ⟨fun hn => ?_, nofun⟩
    have hn' : vs.foldl (pick better) (some v) = none := hn
    rw [hn'] at h
    cases h

/-- The loop ends with the value that none is better than. -/
theorem best_eq_some (hS : ∀ v ∈ vs, S v) {m : α} :
    best better vs = some m ↔ Unbeaten better vs m := by
  cases vs with
  | nil => exact ⟨nofun, fun hm => absurd hm.1 List.not_mem_nil⟩
  | cons v vs =>
    obtain ⟨m', hm', hbest⟩ := foldl_pick h vs v hS
    have hrun : best better (v :: vs) = some m' := hm'
    rw [hrun, Option.some.injEq]
    refine ⟨fun he => he ▸ hbest, fun hm => ?_⟩
    rcases h.total m' m (hS m' hbest.1) (hS m hm.1) with hlt | heq | hlt
    · rw [hm.2 m' hbest.1] at hlt
      cases hlt
    · exact heq
    · rw [hbest.2 m hm.1] at hlt
      cases hlt

theorem best_perm (hS : ∀ v ∈ vs, S v) (hp : vs.Perm ws) : best better vs = best better ws := by
  have hS' : ∀ v ∈ ws, S v := fun v hv => hS v (hp.mem_iff.mpr hv)
  rcases hb : best better vs with _ | m
  · obtain rfl := best_eq_none.mp hb
    rw [← hp.nil_eq]
    rfl
  · obtain ⟨hmem, hall⟩ := (best_eq_some h hS).mp hb
    refine ((best_eq_some h hS').mpr ⟨hp.mem_iff.mp hmem, fun v hv => ?_⟩).symm
    exact hall v (hp.mem_iff.mpr hv)

end

end Extremes
