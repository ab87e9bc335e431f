-- First-order terms in applicative form, and bindings that map a variable
-- to a term that may hold bound variables again. `Resolves` follows every
-- binding to its end. The lemmas say what one more binding does to the
-- terms that resolved before it.
import Mathlib.Data.List.Forall2

namespace FirstOrder

variable {L V : Type}

/-- A term: a variable, a symbol, or a term applied to one more argument. -/
inductive Term (L V : Type) where
  | var (v : V)
  | con (l : L)
  | app (f x : Term L V)
  deriving DecidableEq

namespace Term

/-- The variable `v` stands in the term. -/
def Mem (v : V) : Term L V → Prop
  | var w => v = w
  | con _ => False
  | app f x => Mem v f ∨ Mem v x

/-- A symbol applied to a list of arguments. -/
def apps (f : Term L V) (xs : List (Term L V)) : Term L V := xs.foldl app f

/-- Every variable that `p` picks, replaced by `r`. -/
def replace (p : V → Prop) [DecidablePred p] (r : Term L V) : Term L V → Term L V
  | var w => if p w then r else var w
  | con l => con l
  | app f x => app (replace p r f) (replace p r x)

@[simp] theorem mem_var {v w : V} : Mem (L := L) v (var w) ↔ v = w := Iff.rfl

@[simp] theorem mem_con {v : V} {l : L} : ¬ Mem v (con l) := fun h => h

@[simp] theorem mem_app {v : V} {f x : Term L V} : Mem v (app f x) ↔ Mem v f ∨ Mem v x := Iff.rfl

@[simp] theorem apps_nil (f : Term L V) : f.apps [] = f := rfl

@[simp] theorem apps_cons (f x : Term L V) (xs : List (Term L V)) :
    f.apps (x :: xs) = (app f x).apps xs := rfl

theorem apps_concat (f x : Term L V) (xs : List (Term L V)) :
    f.apps (xs ++ [x]) = app (f.apps xs) x := by
  simp [apps, List.foldl_append]

theorem mem_apps {v : V} {f : Term L V} {xs : List (Term L V)} :
    Mem v (f.apps xs) ↔ Mem v f ∨ ∃ x ∈ xs, Mem v x := by
  induction xs generalizing f with
  | nil => simp
  | cons x xs ih => simp [ih, or_assoc]

end Term

open Term

/-- Each variable has a term, or none. -/
abbrev Bindings (L V : Type) := V → Option (Term L V)

/-- `Resolves σ x r`: with every binding of `σ` followed to its end, `x` is `r`. -/
inductive Resolves (σ : Bindings L V) : Term L V → Term L V → Prop
  | unbound {v : V} (h : σ v = none) : Resolves σ (var v) (var v)
  | bound {v : V} {t r : Term L V} (h : σ v = some t) (ht : Resolves σ t r) : Resolves σ (var v) r
  | con (l : L) : Resolves σ (con l) (con l)
  | app {f x f' x' : Term L V} (hf : Resolves σ f f') (hx : Resolves σ x x') :
      Resolves σ (app f x) (app f' x')

/-- Two terms that resolve to the same term. -/
def Agree (σ : Bindings L V) (x y : Term L V) : Prop := ∃ r, Resolves σ x r ∧ Resolves σ y r

def Resolving (σ : Bindings L V) : Prop := ∀ x, ∃ r, Resolves σ x r

/-- The variables that are met when the bindings of `x` are followed. -/
inductive Meets (σ : Bindings L V) : Term L V → V → Prop
  | here {x : Term L V} {v : V} (h : Mem v x) : Meets σ x v
  | there {x t : Term L V} {w v : V} (h : Mem w x) (hw : σ w = some t) (ht : Meets σ t v) :
      Meets σ x v

/-- No variable is met again behind its own binding. -/
def Acyclic (σ : Bindings L V) : Prop := ∀ v t, σ v = some t → ¬ Meets σ t v

/-- `σ` with `t` for every variable that `p` picks. -/
def assign (σ : Bindings L V) (p : V → Prop) [DecidablePred p] (t : Term L V) : Bindings L V :=
  fun w => if p w then some t else σ w

section

variable {σ : Bindings L V} {x f : Term L V} {v : V}

theorem Resolves.unique {r s : Term L V} (h : Resolves σ x r) (h' : Resolves σ x s) : r = s := by
  induction h generalizing s with
  | unbound hv =>
    cases h' with
    | unbound _ => rfl
    | bound hv' _ => simp [hv] at hv'
  | bound hv _ ih =>
    cases h' with
    | unbound hv' => simp [hv] at hv'
    | bound hv' ht' =>
      rw [hv, Option.some.injEq] at hv'
      subst hv'
      exact ih ht'
  | con l => cases h'; rfl
  | app _ _ ihf ihx =>
    cases h' with
    | app hf' hx' => rw [ihf hf', ihx hx']

theorem Agree.app {f g x y : Term L V} (hf : Agree σ f g) (hx : Agree σ x y) :
    Agree σ (.app f x) (.app g y) := by
  obtain ⟨rf, hf1, hf2⟩ := hf
  obtain ⟨rx, hx1, hx2⟩ := hx
  exact ⟨_, hf1.app hx1, hf2.app hx2⟩

theorem Agree.con (l : L) : Agree σ (.con l : Term L V) (.con l) := ⟨_, .con l, .con l⟩

theorem Agree.apps {g : Term L V} {xs ys : List (Term L V)} (hf : Agree σ f g)
    (h : List.Forall₂ (Agree σ) xs ys) : Agree σ (f.apps xs) (g.apps ys) := by
  induction h generalizing f g with
  | nil => exact hf
  | cons hx _ ih => exact ih (hf.app hx)

theorem resolving_none : Resolving (fun _ => none : Bindings L V) := by
  intro x
  refine ⟨x, ?_⟩
  induction x with
  | var v => exact .unbound rfl
  | con l => exact .con l
  | app f x ihf ihx => exact ihf.app ihx

theorem acyclic_none : Acyclic (fun _ => none : Bindings L V) := by
  intro v t h
  simp at h

theorem Meets.app_left (h : Meets σ f v) : Meets σ (.app f x) v := by
  cases h with
  | here h => exact .here (.inl h)
  | there h hw ht => exact .there (.inl h) hw ht

theorem Meets.app_right (h : Meets σ x v) : Meets σ (.app f x) v := by
  cases h with
  | here h => exact .here (.inr h)
  | there h hw ht => exact .there (.inr h) hw ht

theorem Meets.trans {t : Term L V} {w : V} (h : Meets σ x w) (hw : σ w = some t)
    (ht : Meets σ t v) : Meets σ x v := by
  induction h with
  | here hm => exact .there hm hw ht
  | there hm hw' _ ih => exact .there hm hw' (ih hw)

end

section

variable {σ : Bindings L V} {p : V → Prop} [DecidablePred p] {t : Term L V}
  {w : V} {x r rt : Term L V}

theorem assign_pos (h : p w) : assign σ p t w = some t := by simp [assign, h]

theorem assign_neg (h : ¬ p w) : assign σ p t w = σ w := by simp [assign, h]

theorem Resolves.assign_of_not_meets (h : Resolves σ x r)
    (hx : ∀ w, p w → ¬ Meets σ x w) : Resolves (assign σ p t) x r := by
  induction h with
  | @unbound v hv =>
    have hp : ¬ p v := fun hp => hx v hp (.here rfl)
    exact .unbound (by rw [assign_neg hp, hv])
  | @bound v u _ hv _ ih =>
    have hp : ¬ p v := fun hp => hx v hp (.here rfl)
    refine .bound (by rw [assign_neg hp, hv]) (ih ?_)
    intro w hw hm
    exact hx w hw (.there rfl hv hm)
  | con l => exact .con l
  | app _ _ ihf ihx =>
    exact .app (ihf fun w hw hm => hx w hw hm.app_left) (ihx fun w hw hm => hx w hw hm.app_right)

theorem Resolves.assign_total (h : Resolves σ x r)
    (ht : Resolves (assign σ p t) t rt) : ∃ r', Resolves (assign σ p t) x r' := by
  induction h with
  | @unbound v hv =>
    by_cases hp : p v
    · exact ⟨rt, .bound (assign_pos hp) ht⟩
    · exact ⟨_, .unbound (by rw [assign_neg hp, hv])⟩
  | @bound v u _ hv _ ih =>
    by_cases hp : p v
    · exact ⟨rt, .bound (assign_pos hp) ht⟩
    · obtain ⟨r', hr'⟩ := ih
      exact ⟨r', .bound (by rw [assign_neg hp, hv]) hr'⟩
  | con l => exact ⟨_, .con l⟩
  | app _ _ ihf ihx =>
    obtain ⟨f', hf'⟩ := ihf
    obtain ⟨x', hx'⟩ := ihx
    exact ⟨_, hf'.app hx'⟩

/-- An assignment of a term that does not meet its own variables keeps every
term resolving. -/
theorem Resolving.assign (h : Resolving σ) (ht : ∀ w, p w → ¬ Meets σ t w) :
    Resolving (FirstOrder.assign σ p t) := by
  intro x
  obtain ⟨rt, hrt⟩ := h t
  obtain ⟨r, hr⟩ := h x
  exact hr.assign_total (hrt.assign_of_not_meets ht)

/-- When the variables assigned were free, the old results only have them replaced. -/
theorem Resolves.assign_unbound (h : Resolves σ x r)
    (hp : ∀ w, p w → σ w = none) (ht : Resolves (FirstOrder.assign σ p t) t rt) :
    Resolves (FirstOrder.assign σ p t) x (replace p rt r) := by
  induction h with
  | @unbound v hv =>
    by_cases hpv : p v
    · simpa [replace, hpv] using Resolves.bound (assign_pos hpv) ht
    · have hn : FirstOrder.assign σ p t v = none := by rw [assign_neg hpv, hv]
      simpa [replace, hpv] using Resolves.unbound hn
  | @bound v u _ hv _ ih =>
    have hpv : ¬ p v := fun hpv => by simp [hp v hpv] at hv
    exact .bound (by rw [assign_neg hpv, hv]) ih
  | con l => exact .con l
  | app _ _ ihf ihx => exact ihf.app ihx

theorem Resolves.assign_agreeing (h : Resolves σ x r)
    (hp : ∀ w, p w → Resolves σ (var w) rt) (ht : Resolves (FirstOrder.assign σ p t) t rt) :
    Resolves (FirstOrder.assign σ p t) x r := by
  induction h with
  | @unbound v hv =>
    by_cases hpv : p v
    · have hr : rt = var v := (hp v hpv).unique (.unbound hv)
      exact .bound (assign_pos hpv) (hr ▸ ht)
    · exact .unbound (by rw [assign_neg hpv, hv])
  | @bound v u r hv hu ih =>
    by_cases hpv : p v
    · have hr : rt = r := (hp v hpv).unique (.bound hv hu)
      exact .bound (assign_pos hpv) (hr ▸ ht)
    · exact .bound (by rw [assign_neg hpv, hv]) ih
  | con l => exact .con l
  | app _ _ ihf ihx => exact ihf.app ihx

theorem Agree.assign_unbound {y : Term L V} (h : Agree σ x y) (hσ : Resolving σ)
    (hp : ∀ w, p w → σ w = none) (ht : ∀ w, p w → ¬ Meets σ t w) :
    Agree (FirstOrder.assign σ p t) x y := by
  obtain ⟨r, hx, hy⟩ := h
  obtain ⟨rt, hrt⟩ := hσ t
  have hrt' := hrt.assign_of_not_meets (t := t) ht
  exact ⟨_, hx.assign_unbound hp hrt', hy.assign_unbound hp hrt'⟩

theorem Agree.assign_agreeing {y : Term L V} (h : Agree σ x y)
    (hp : ∀ w, p w → Agree σ (var w) t) (ht : ∀ w, p w → ¬ Meets σ t w) (hσ : Resolving σ) :
    Agree (FirstOrder.assign σ p t) x y := by
  obtain ⟨r, hx, hy⟩ := h
  obtain ⟨rt, hrt⟩ := hσ t
  have hrt' := hrt.assign_of_not_meets (t := t) ht
  have hw : ∀ w, p w → Resolves σ (var w) rt := by
    intro w hpw
    obtain ⟨s, hs, hts⟩ := hp w hpw
    rwa [hrt.unique hts]
  exact ⟨_, hx.assign_agreeing hw hrt', hy.assign_agreeing hw hrt'⟩

theorem agree_assign_self (hw : p w) (hσ : Resolving σ) (ht : ∀ w, p w → ¬ Meets σ t w) :
    Agree (FirstOrder.assign σ p t) (var w) t := by
  obtain ⟨rt, hrt⟩ := hσ t
  have hrt' := hrt.assign_of_not_meets (t := t) ht
  exact ⟨rt, .bound (assign_pos hw) hrt', hrt'⟩

/-- What is met after the assignment was met before it, or is met from the new
term behind a variable assigned. -/
theorem Meets.of_assign {v : V} (h : Meets (FirstOrder.assign σ p t) x v) :
    Meets σ x v ∨ ∃ w, p w ∧ Meets σ x w ∧ Meets (FirstOrder.assign σ p t) t v := by
  induction h with
  | here hm => exact .inl (.here hm)
  | @there x u w v hm hw hu ih =>
    by_cases hp : p w
    · rw [assign_pos hp, Option.some.injEq] at hw
      subst hw
      exact .inr ⟨w, hp, .here hm, hu⟩
    · rw [assign_neg hp] at hw
      rcases ih with h | ⟨w', hp', h, hv⟩
      · exact .inl (.there hm hw h)
      · exact .inr ⟨w', hp', .there hm hw h, hv⟩

/-- An assignment of a term that does not meet its own variables closes no cycle. -/
theorem Acyclic.assign (h : Acyclic σ) (ht : ∀ w, p w → ¬ Meets σ t w) :
    Acyclic (FirstOrder.assign σ p t) := by
  have hmeets : ∀ v, Meets (FirstOrder.assign σ p t) t v → Meets σ t v := by
    intro v hm
    rcases hm.of_assign with hm | ⟨w, hw, hm, _⟩
    · exact hm
    · exact absurd hm (ht w hw)
  intro v u hv hm
  by_cases hp : p v
  · rw [assign_pos hp, Option.some.injEq] at hv
    subst hv
    exact ht v hp (hmeets v hm)
  · rw [assign_neg hp] at hv
    -- the way back to `v` avoids the new binding, or enters it and meets its own variable
    rcases hm.of_assign with hm | ⟨w, hw, hm, hback⟩
    · exact h v u hv hm
    · exact ht w hw ((hmeets v hback).trans hv hm)

end

end FirstOrder
