-- The unifier of the shell's type checker: Robinson unification, with rows
-- split into shared fields and extras whose tails are then bound. A call may
-- run on without end where the bindings lead back to themselves, so it takes
-- fuel; `run_steps` lists what a run goes through between its calls.
import PaideiaAs.ShellHm.Resolve

open Assoc

namespace paideia_as_shell_hm

open RowType (from_map)

inductive UnifyError where
  | Mismatch (a b : MonoType)
  | OccursCheck (var : TypeVar) (ty : MonoType)
  | MissingField (field side : String)
  | RowMismatch (reason : String)
  | EffectRowMismatch (missing extra : List String)
  | TypedValueMismatch (value_err effect_err : Option UnifyError)

/-- `max` is `u32::MAX` in the Rust code, past which the counter panics. -/
structure FreshVarGen where
  next : Nat
  max : Nat := 4294967295
  deriving DecidableEq

/-- `checked_add(1)` with `expect`. -/
def FreshVarGen.fresh (g : FreshVarGen) : Outcome (TypeVar × FreshVarGen) :=
  if g.next < g.max then .ok (g.next, { g with next := g.next + 1 }) else .error .panic

def FreshVarGen.new : FreshVarGen := { next := 0 }

/-- How a call comes back without a substitution: a fault of its own, or an
error, with the generator as the call left it. -/
inductive Failure where
  | fault (f : Fault)
  | err (e : UnifyError) (g : FreshVarGen)

abbrev Call (α : Type) := Except Failure α

def call {α : Type} : Outcome α → Call α
  | .ok a => .ok a
  | .error f => .error (.fault f)

/-- `Display` of `MonoType::Var`. -/
def var_name (v : TypeVar) : String :=
  if v < 26 then String.singleton (Char.ofNat ('a'.toNat + v)) else "t" ++ toString v

mutual

def occurs_check (v : TypeVar) : MonoType → Bool
  | .Var w => w == v
  | .Con _ => false
  | .Arrow a b => occurs_check v a || occurs_check v b
  | .Record row => occurs_check_row v row
  | .EffectRow row => occurs_check_row v row
  | .Typed value_row effect_row => occurs_check_row v value_row || occurs_check_row v effect_row

/-- `occurs_check_row` and `occurs_check_effect_row`. -/
def occurs_check_row (v : TypeVar) : RowType → Bool
  | .Empty => false
  | .RowVar w => w == v
  | .Extend _ ty rest => occurs_check v ty || occurs_check_row v rest

end

/-- The test of `bind`: the variable is bound when it does not occur in the type. -/
def bind (var : TypeVar) (ty : MonoType) (g : FreshVarGen) : Call (Substitution × FreshVarGen) :=
  if occurs_check var ty then .error (.err (.OccursCheck var ty) g)
  else .ok (.singleton var ty, g)

abbrev Fields := List (String × MonoType)

/-- Fields of both rows, in name order. -/
def shared_fields (a b : Fields) : List (String × MonoType × MonoType) :=
  (a.filterMap fun p => (b.lookup p.1).map fun bty => (p.1, p.2, bty)).insertionSort
    fun x y => x.1 ≤ y.1

/-- Fields of `a` that are not in `b`. -/
def only_fields (a b : Fields) : Fields := a.filter fun p => (b.lookup p.1).isNone

def smallest_key (m : Fields) : String :=
  match (keys m).insertionSort (· ≤ ·) with
  | [] => ""
  | k :: _ => k

/-- The loop of occurs checks before a tail is bound. -/
def check_extras (v : TypeVar) (extras : Fields) (g : FreshVarGen) : Call Unit :=
  match extras.find? fun p => occurs_check v p.2 with
  | some p => .error (.err (.OccursCheck v p.2) g)
  | none => .ok ()

/-- Extras that the closed row of a side has no place for. -/
def RowKind.no_place (k : RowKind) (side : String) (a_only b_only : Fields) (g : FreshVarGen) :
    Failure :=
  match k with
  | .record => .err (.MissingField (smallest_key (if side = "right" then a_only else b_only)) side) g
  | .effect => .err (.EffectRowMismatch (keys b_only) (keys a_only)) g

/-- The same tail on both sides, with extras. -/
def RowKind.same_tail (k : RowKind) (v : TypeVar) (a_only b_only : Fields) (g : FreshVarGen) :
    Failure :=
  match k with
  | .record => .err (.RowMismatch ("row variable `" ++ var_name v ++
      "` appears on both sides with incompatible extras")) g
  | .effect => .err (.EffectRowMismatch (keys b_only) (keys a_only)) g

/-- The state before the tails are bound: what the shared fields bound, the
extras of the two sides under it, and the tails. -/
structure TailStep where
  subst : Substitution
  a_only : Fields
  b_only : Fields
  a_tail : Option TypeVar
  b_tail : Option TypeVar
  deriving DecidableEq

/-- Tails and extras reconciled: the last step of both row unifiers. -/
def TailStep.solve (st : TailStep) (k : RowKind) (n : Nat) (g : FreshVarGen) :
    Call (Substitution × FreshVarGen) :=
  match st.a_tail, st.b_tail with
  | none, none =>
    if !st.a_only.isEmpty then .error (k.no_place "right" st.a_only st.b_only g)
    else if !st.b_only.isEmpty then .error (k.no_place "left" st.a_only st.b_only g)
    else .ok (st.subst, g)
  | some av, none =>
    if !st.a_only.isEmpty then .error (k.no_place "right" st.a_only st.b_only g)
    else do
      check_extras av st.b_only g
      let s := Substitution.singleton av (k.wrap (from_map st.b_only none))
      let out ← call (s.compose n st.subst)
      return (out, g)
  | none, some bv =>
    if !st.b_only.isEmpty then .error (k.no_place "left" st.a_only st.b_only g)
    else do
      check_extras bv st.a_only g
      let s := Substitution.singleton bv (k.wrap (from_map st.a_only none))
      let out ← call (s.compose n st.subst)
      return (out, g)
  | some av, some bv =>
    if av = bv then
      if st.a_only.isEmpty && st.b_only.isEmpty then .ok (st.subst, g)
      else .error (k.same_tail av st.a_only st.b_only g)
    else do
      check_extras av st.b_only g
      check_extras bv st.a_only g
      let (r, g') ← call g.fresh
      let s := (Substitution.empty.insert av (k.wrap (from_map st.b_only (some r)))).insert bv
        (k.wrap (from_map st.a_only (some r)))
      let out ← call (s.compose n st.subst)
      return (out, g')

/-- The shared fields unified one after the other. -/
def unify_shared (unify : MonoType → MonoType → FreshVarGen → Call (Substitution × FreshVarGen))
    (n : Nat) : List (String × MonoType × MonoType) → Substitution → FreshVarGen →
    Call (Substitution × FreshVarGen)
  | [], subst, g => .ok (subst, g)
  | (_, ta, tb) :: rest, subst, g => do
    let ta' ← call (subst.apply n ta)
    let tb' ← call (subst.apply n tb)
    let (s, g') ← unify ta' tb' g
    let subst' ← call (s.compose n subst)
    unify_shared unify n rest subst' g'

/-- The extras of a row under the substitution of the shared fields. -/
def refine_extras (subst : Substitution) (n : Nat) (extras : Fields) : Call Fields :=
  extras.mapM fun p => do
    let ty ← call (subst.apply n p.2)
    return (p.1, ty)

/-- The body of `unify_rows` and `unify_effect_rows` up to the tails. -/
def prepare_tails (unify : MonoType → MonoType → FreshVarGen → Call (Substitution × FreshVarGen))
    (n : Nat) (a b : RowType) (g : FreshVarGen) : Call (TailStep × FreshVarGen) := do
  let (a_fields, a_tail) := a.to_map
  let (b_fields, b_tail) := b.to_map
  let (subst, g') ← unify_shared unify n (shared_fields a_fields b_fields) .empty g
  let a_only ← refine_extras subst n (only_fields a_fields b_fields)
  let b_only ← refine_extras subst n (only_fields b_fields a_fields)
  return ({ subst, a_only, b_only, a_tail, b_tail }, g')

def unify_row_kind (unify : MonoType → MonoType → FreshVarGen → Call (Substitution × FreshVarGen))
    (k : RowKind) (n : Nat) (a b : RowType) (g : FreshVarGen) :
    Call (Substitution × FreshVarGen) := do
  let (st, g') ← prepare_tails unify n a b g
  st.solve k n g'

/-- `unify_with_fresh`, with the two row unifiers and `unify_typed_values_with_fresh`
that it calls. -/
def unify_with_fresh : Nat → MonoType → MonoType → FreshVarGen → Call (Substitution × FreshVarGen)
  | 0, _, _, _ => .error (.fault .div)
  | n + 1, a, b, g =>
    match a, b with
    | .Var v, t => if t = .Var v then .ok (.empty, g) else bind v t g
    | t, .Var v => bind v t g
    | .Con x, .Con y => if x = y then .ok (.empty, g) else .error (.err (.Mismatch a b) g)
    | .Arrow a₁ a₂, .Arrow b₁ b₂ => do
      let (s₁, g₁) ← unify_with_fresh n a₁ b₁ g
      let a₂' ← call (s₁.apply n a₂)
      let b₂' ← call (s₁.apply n b₂)
      let (s₂, g₂) ← unify_with_fresh n a₂' b₂' g₁
      let s ← call (s₂.compose n s₁)
      return (s, g₂)
    | .Record ra, .Record rb => unify_row_kind (unify_with_fresh n) .record n ra rb g
    | .EffectRow ea, .EffectRow eb => unify_row_kind (unify_with_fresh n) .effect n ea eb g
    | .Typed va ea, .Typed vb eb =>
      match unify_row_kind (unify_with_fresh n) .record n va vb g with
      | .ok (sv, g₁) => do
        let ea' ← call (sv.apply_effect_row n ea)
        let eb' ← call (sv.apply_effect_row n eb)
        match unify_row_kind (unify_with_fresh n) .effect n ea' eb' g₁ with
        | .ok (se, g₂) =>
          let s ← call (se.compose n sv)
          return (s, g₂)
        | .error (.err e g₂) => .error (.err (.TypedValueMismatch none (some e)) g₂)
        | .error (.fault f) => .error (.fault f)
      | .error (.err e g₁) =>
        match unify_row_kind (unify_with_fresh n) .effect n ea eb g₁ with
        | .ok (_, g₂) => .error (.err (.TypedValueMismatch (some e) none) g₂)
        | .error (.err e' g₂) => .error (.err (.TypedValueMismatch (some e) (some e')) g₂)
        | .error (.fault f) => .error (.fault f)
      | .error (.fault f) => .error (.fault f)
    | _, _ => .error (.err (.Mismatch a b) g)

def unify_rows (n : Nat) : RowType → RowType → FreshVarGen → Call (Substitution × FreshVarGen) :=
  unify_row_kind (unify_with_fresh n) .record n

def unify_effect_rows (n : Nat) :
    RowType → RowType → FreshVarGen → Call (Substitution × FreshVarGen) :=
  unify_row_kind (unify_with_fresh n) .effect n

/-- The entry point with a generator of its own. -/
def unify (n : Nat) (a b : MonoType) : Call (Substitution × FreshVarGen) :=
  unify_with_fresh n a b .new

/-! ## What a run goes through -/

/-- A step that binds variables, with the substitutions that the run has found
before it: a variable is bound to a type, or the tails of two rows are bound. -/
inductive RunStep where
  | bind (before : List Substitution) (v : TypeVar) (t : MonoType)
  | tails (before : List Substitution) (k : RowKind) (st : TailStep)

/-- The steps that the unifications of the shared fields go through. -/
def shared_steps (unify : MonoType → MonoType → FreshVarGen → Call (Substitution × FreshVarGen))
    (steps : List Substitution → MonoType → MonoType → FreshVarGen → List RunStep)
    (before : List Substitution) (n : Nat) :
    List (String × MonoType × MonoType) → Substitution → FreshVarGen → List RunStep
  | [], _, _ => []
  | (_, ta, tb) :: rest, subst, g =>
    match subst.apply n ta, subst.apply n tb with
    | .ok ta', .ok tb' => steps (subst :: before) ta' tb' g ++
      match unify ta' tb' g with
      | .ok (s, g') =>
        match s.compose n subst with
        | .ok subst' => shared_steps unify steps before n rest subst' g'
        | .error _ => []
      | .error _ => []
    | _, _ => []

def row_steps (unify : MonoType → MonoType → FreshVarGen → Call (Substitution × FreshVarGen))
    (steps : List Substitution → MonoType → MonoType → FreshVarGen → List RunStep)
    (before : List Substitution) (k : RowKind) (n : Nat) (a b : RowType) (g : FreshVarGen) :
    List RunStep :=
  shared_steps unify steps before n (shared_fields a.to_map.1 b.to_map.1) .empty g ++
    match prepare_tails unify n a b g with
    | .ok (st, _) => [.tails before k st]
    | .error _ => []

/-- Every step of the run of `unify_with_fresh` that binds variables. -/
def run_steps : Nat → List Substitution → MonoType → MonoType → FreshVarGen → List RunStep
  | 0, _, _, _, _ => []
  | n + 1, before, a, b, g =>
    match a, b with
    | .Var v, t => if t = .Var v then [] else [.bind before v t]
    | t, .Var v => [.bind before v t]
    | .Arrow a₁ a₂, .Arrow b₁ b₂ => run_steps n before a₁ b₁ g ++
      match unify_with_fresh n a₁ b₁ g with
      | .ok (s₁, g₁) =>
        match s₁.apply n a₂, s₁.apply n b₂ with
        | .ok a₂', .ok b₂' => run_steps n (s₁ :: before) a₂' b₂' g₁
        | _, _ => []
      | .error _ => []
    | .Record ra, .Record rb =>
      row_steps (unify_with_fresh n) (run_steps n) before .record n ra rb g
    | .EffectRow ea, .EffectRow eb =>
      row_steps (unify_with_fresh n) (run_steps n) before .effect n ea eb g
    | .Typed va ea, .Typed vb eb =>
      row_steps (unify_with_fresh n) (run_steps n) before .record n va vb g ++
      match unify_row_kind (unify_with_fresh n) .record n va vb g with
      | .ok (sv, g₁) =>
        match sv.apply_effect_row n ea, sv.apply_effect_row n eb with
        | .ok ea', .ok eb' =>
          row_steps (unify_with_fresh n) (run_steps n) (sv :: before) .effect n ea' eb' g₁
        | _, _ => []
      | .error _ => []
    | _, _ => []

def extra_vars (extras : Fields) : List TypeVar := extras.flatMap fun p => p.2.free_vars

namespace TailStep

/-- The tails that the step binds. -/
def binds (st : TailStep) : List TypeVar :=
  match st.a_tail, st.b_tail with
  | none, none => []
  | some av, none => [av]
  | none, some bv => [bv]
  | some av, some bv => if av = bv then [] else [av, bv]

/-- Where both tails are bound, the row of `a`'s tail leads to `b`'s tail, or the
row of `b`'s tail leads to `a`'s, but not both. -/
def Uncrossed (st : TailStep) : Prop :=
  ∀ av bv, st.a_tail = some av → st.b_tail = some bv → av ≠ bv →
    ¬ (bv ∈ extra_vars st.b_only ∧ av ∈ extra_vars st.a_only)

/-- The shared fields have not bound the tails that the step binds. -/
def Unbound (st : TailStep) : Prop := ∀ v ∈ st.binds, st.subst.lookup v = none

instance (st : TailStep) : Decidable st.Unbound :=
  inferInstanceAs (Decidable (∀ v ∈ st.binds, _ = none))

end TailStep

/-! ## Calls that come back with a value -/

section

variable {α β : Type}

theorem call_eq_ok {x : Outcome α} {a : α} : call x = .ok a ↔ x = .ok a := by
  cases x with
  | ok b => simp [call]
  | error f => simp [call]

theorem call_bind_ok {x : Call α} {f : α → Call β} {b : β} :
    x >>= f = .ok b ↔ ∃ a, x = .ok a ∧ f a = .ok b := by
  cases x with
  | ok a => simp [Bind.bind, Except.bind]
  | error e => simp [Bind.bind, Except.bind]

end

variable {g g' : FreshVarGen} {v : TypeVar}

theorem FreshVarGen.fresh_ok (h : g.fresh = .ok (v, g')) :
    v = g.next ∧ g'.next = g.next + 1 ∧ g'.max = g.max ∧ g.next < g.max := by
  unfold FreshVarGen.fresh at h
  split at h
  · cases h
    exact ⟨rfl, rfl, rfl, by assumption⟩
  · cases h

mutual

theorem occurs_check_iff (v : TypeVar) (t : MonoType) :
    occurs_check v t = true ↔ v ∈ t.free_vars := by
  match t with
  | .Var w =>
    simp only [occurs_check, beq_iff_eq, MonoType.free_vars, List.mem_singleton]
    exact eq_comm
  | .Con _ => simp [occurs_check, MonoType.free_vars]
  | .Arrow a b =>
    simp [occurs_check, MonoType.free_vars, occurs_check_iff v a, occurs_check_iff v b]
  | .Record row => simp [occurs_check, MonoType.free_vars, occurs_check_row_iff v row]
  | .EffectRow row => simp [occurs_check, MonoType.free_vars, occurs_check_row_iff v row]
  | .Typed x e =>
    simp [occurs_check, MonoType.free_vars, occurs_check_row_iff v x, occurs_check_row_iff v e]

theorem occurs_check_row_iff (v : TypeVar) (r : RowType) :
    occurs_check_row v r = true ↔ v ∈ r.free_vars := by
  match r with
  | .Empty => simp [occurs_check_row, RowType.free_vars]
  | .RowVar w =>
    simp only [occurs_check_row, beq_iff_eq, RowType.free_vars, List.mem_singleton]
    exact eq_comm
  | .Extend f ty rest =>
    simp [occurs_check_row, RowType.free_vars, occurs_check_iff v ty, occurs_check_row_iff v rest]

end

theorem bind_ok {t : MonoType} {s : Substitution}
    (h : bind v t g = .ok (s, g')) : v ∉ t.free_vars ∧ s = .singleton v t ∧ g' = g := by
  unfold bind at h
  split at h
  · cases h
  · rename_i hv
    cases h
    exact ⟨fun hm => hv ((occurs_check_iff v t).mpr hm), rfl, rfl⟩

theorem check_extras_ok {extras : Fields} {u : Unit}
    (h : check_extras v extras g = .ok u) : v ∉ extra_vars extras := by
  unfold check_extras at h
  split at h
  · cases h
  · rename_i hn
    intro hv
    obtain ⟨p, hp, hvp⟩ := List.mem_flatMap.mp hv
    have := List.find?_eq_none.mp hn p hp
    simp [occurs_check_iff, hvp] at this

/-- The substitution of two tails with a new one behind them. -/
def twoTails (k : RowKind) (av bv r : TypeVar) (a_only b_only : Fields) : Substitution :=
  (Substitution.empty.insert av (k.wrap (from_map b_only (some r)))).insert bv
    (k.wrap (from_map a_only (some r)))

/-- How the tail step comes back with a substitution. -/
inductive SolveStep (st : TailStep) (k : RowKind) (n : Nat) (g : FreshVarGen) :
    Substitution → FreshVarGen → Prop
  | closed (ha : st.a_tail = none) (hb : st.b_tail = none) (hae : st.a_only = [])
      (hbe : st.b_only = []) : SolveStep st k n g st.subst g
  | same {v : TypeVar} (ha : st.a_tail = some v) (hb : st.b_tail = some v) (hae : st.a_only = [])
      (hbe : st.b_only = []) : SolveStep st k n g st.subst g
  | left {av : TypeVar} {out : Substitution} (ha : st.a_tail = some av) (hb : st.b_tail = none)
      (hae : st.a_only = []) (hocc : av ∉ extra_vars st.b_only)
      (hc : (Substitution.singleton av (k.wrap (from_map st.b_only none))).compose n st.subst
        = .ok out) : SolveStep st k n g out g
  | right {bv : TypeVar} {out : Substitution} (ha : st.a_tail = none) (hb : st.b_tail = some bv)
      (hbe : st.b_only = []) (hocc : bv ∉ extra_vars st.a_only)
      (hc : (Substitution.singleton bv (k.wrap (from_map st.a_only none))).compose n st.subst
        = .ok out) : SolveStep st k n g out g
  | both {av bv : TypeVar} {out : Substitution} {g' : FreshVarGen} (ha : st.a_tail = some av)
      (hb : st.b_tail = some bv) (hne : av ≠ bv) (hav : av ∉ extra_vars st.b_only)
      (hbv : bv ∉ extra_vars st.a_only) (hg : g.fresh = .ok (g.next, g'))
      (hc : (twoTails k av bv g.next st.a_only st.b_only).compose n st.subst = .ok out) :
      SolveStep st k n g out g'

theorem solve_step {st : TailStep} {k : RowKind} {n : Nat} {s : Substitution}
    (h : st.solve k n g = .ok (s, g')) : SolveStep st k n g s g' := by
  have hempty : ∀ m : Fields, ¬ (!m.isEmpty) = true → m = [] := by
    intro m hm
    simpa using hm
  unfold TailStep.solve at h
  rcases hat : st.a_tail with _ | av <;> rcases hbt : st.b_tail with _ | bv <;>
    simp only [hat, hbt] at h
  · -- both rows closed
    split at h
    · cases h
    · rename_i ha
      split at h
      · cases h
      · rename_i hb
        cases h
        exact .closed hat hbt (hempty _ ha) (hempty _ hb)
  · -- only `b` is open
    split at h
    · cases h
    · rename_i hb
      simp only [call_bind_ok, call_eq_ok] at h
      obtain ⟨_, hocc, sub, hc, he⟩ := h
      cases he
      exact .right hat hbt (hempty _ hb) (check_extras_ok hocc) hc
  · -- only `a` is open
    split at h
    · cases h
    · rename_i ha
      simp only [call_bind_ok, call_eq_ok] at h
      obtain ⟨_, hocc, sub, hc, he⟩ := h
      cases he
      exact .left hat hbt (hempty _ ha) (check_extras_ok hocc) hc
  · -- both rows open
    split at h
    · rename_i heq
      split at h
      · rename_i hnone
        cases h
        simp only [Bool.and_eq_true, List.isEmpty_iff] at hnone
        exact .same hat (heq ▸ hbt) hnone.1 hnone.2
      · cases h
    · rename_i hne
      simp only [call_bind_ok, call_eq_ok] at h
      obtain ⟨_, hocc, _, hocc', ⟨r, g₁⟩, hfr, sub, hc, he⟩ := h
      cases he
      obtain ⟨rfl, -⟩ := FreshVarGen.fresh_ok hfr
      exact .both hat hbt hne (check_extras_ok hocc) (check_extras_ok hocc') hfr hc

/-- How a call with one more unit of fuel comes back with a substitution. -/
inductive UnifyStep (n : Nat) :
    MonoType → MonoType → FreshVarGen → Substitution → FreshVarGen → Prop
  | same (v : TypeVar) (g : FreshVarGen) : UnifyStep n (.Var v) (.Var v) g .empty g
  | left (v : TypeVar) (t : MonoType) (g : FreshVarGen) (h : v ∉ t.free_vars) :
      UnifyStep n (.Var v) t g (.singleton v t) g
  | right (v : TypeVar) (t : MonoType) (g : FreshVarGen) (ht : ∀ w, t ≠ .Var w)
      (h : v ∉ t.free_vars) : UnifyStep n t (.Var v) g (.singleton v t) g
  | con (x : String) (g : FreshVarGen) : UnifyStep n (.Con x) (.Con x) g .empty g
  | arrow {a₁ a₂ a₂' b₁ b₂ b₂' : MonoType} {g g₁ g₂ : FreshVarGen} {s₁ s₂ s : Substitution}
      (h₁ : unify_with_fresh n a₁ b₁ g = .ok (s₁, g₁)) (ha : s₁.apply n a₂ = .ok a₂')
      (hb : s₁.apply n b₂ = .ok b₂') (h₂ : unify_with_fresh n a₂' b₂' g₁ = .ok (s₂, g₂))
      (hs : s₂.compose n s₁ = .ok s) : UnifyStep n (.Arrow a₁ a₂) (.Arrow b₁ b₂) g s g₂
  | row {k : RowKind} {a b : RowType} {g g' : FreshVarGen} {s : Substitution}
      (h : unify_row_kind (unify_with_fresh n) k n a b g = .ok (s, g')) :
      UnifyStep n (k.wrap a) (k.wrap b) g s g'
  | typed {va vb ea ea' eb eb' : RowType} {g g₁ g₂ : FreshVarGen} {sv se s : Substitution}
      (hv : unify_row_kind (unify_with_fresh n) .record n va vb g = .ok (sv, g₁))
      (ha : sv.apply_effect_row n ea = .ok ea') (hb : sv.apply_effect_row n eb = .ok eb')
      (he : unify_row_kind (unify_with_fresh n) .effect n ea' eb' g₁ = .ok (se, g₂))
      (hs : se.compose n sv = .ok s) : UnifyStep n (.Typed va ea) (.Typed vb eb) g s g₂

theorem unify_step {n : Nat} {a b : MonoType} {s : Substitution}
    (h : unify_with_fresh (n + 1) a b g = .ok (s, g')) : UnifyStep n a b g s g' := by
  have hleft : ∀ v t, (if t = .Var v then .ok (.empty, g) else bind v t g : Call _) = .ok (s, g') →
      UnifyStep n (.Var v) t g s g' := by
    intro v t h
    split at h
    · rename_i ht
      cases h
      subst ht
      exact .same v g
    · obtain ⟨hv, rfl, rfl⟩ := bind_ok h
      exact .left v t _ hv
  have hright : ∀ v t, (∀ w, t ≠ .Var w) → bind v t g = .ok (s, g') →
      UnifyStep n t (.Var v) g s g' := by
    intro v t ht h
    obtain ⟨hv, rfl, rfl⟩ := bind_ok h
    exact .right v t _ ht hv
  match a, b with
  | .Var v, t => exact hleft v t h
  | .Con _, .Var v => exact hright v _ (by simp) h
  | .Arrow _ _, .Var v => exact hright v _ (by simp) h
  | .Record _, .Var v => exact hright v _ (by simp) h
  | .EffectRow _, .Var v => exact hright v _ (by simp) h
  | .Typed _ _, .Var v => exact hright v _ (by simp) h
  | .Con x, .Con y =>
    simp only [unify_with_fresh] at h
    split at h
    · rename_i hxy
      cases h
      exact hxy ▸ .con x _
    · cases h
  | .Arrow a₁ a₂, .Arrow b₁ b₂ =>
    simp only [unify_with_fresh, call_bind_ok, call_eq_ok] at h
    obtain ⟨⟨s₁, g₁⟩, h₁, a₂', ha, b₂', hb, ⟨s₂, g₂⟩, h₂, s', hs, he⟩ := h
    cases he
    exact .arrow h₁ ha hb h₂ hs
  | .Record ra, .Record rb => exact @UnifyStep.row n .record ra rb g g' s h
  | .EffectRow ea, .EffectRow eb => exact @UnifyStep.row n .effect ea eb g g' s h
  | .Typed va ea, .Typed vb eb =>
    simp only [unify_with_fresh] at h
    split at h
    · rename_i sv g₁ hv
      simp only [call_bind_ok, call_eq_ok] at h
      obtain ⟨ea', ha, eb', hb, h⟩ := h
      split at h
      · rename_i se g₂ he
        simp only [call_bind_ok, call_eq_ok] at h
        obtain ⟨s', hs, hr⟩ := h
        cases hr
        exact .typed hv ha hb he hs
      · cases h
      · cases h
    · split at h <;> cases h
    · cases h
  | .Con _, .Arrow _ _ | .Con _, .Record _ | .Con _, .EffectRow _ | .Con _, .Typed _ _
  | .Arrow _ _, .Con _ | .Arrow _ _, .Record _ | .Arrow _ _, .EffectRow _ | .Arrow _ _, .Typed _ _
  | .Record _, .Con _ | .Record _, .Arrow _ _ | .Record _, .EffectRow _ | .Record _, .Typed _ _
  | .EffectRow _, .Con _ | .EffectRow _, .Arrow _ _ | .EffectRow _, .Record _
  | .EffectRow _, .Typed _ _ | .Typed _ _, .Con _ | .Typed _ _, .Arrow _ _
  | .Typed _ _, .Record _ | .Typed _ _, .EffectRow _ => cases h

/-! ### The steps of a call -/

section

variable {n : Nat} {s s₁ : Substitution} {g₁ : FreshVarGen} {P : List Substitution} {t : MonoType}

theorem row_steps_eq
    {unify : MonoType → MonoType → FreshVarGen → Call (Substitution × FreshVarGen)}
    {steps : List Substitution → MonoType → MonoType → FreshVarGen → List RunStep}
    {a b : RowType} {k : RowKind} {st : TailStep}
    (h : prepare_tails unify n a b g = .ok (st, g₁)) :
    row_steps unify steps P k n a b g =
      shared_steps unify steps P n (shared_fields a.to_map.1 b.to_map.1) .empty g ++
        [.tails P k st] := by
  simp only [row_steps, h]

theorem run_steps_left (h : v ∉ t.free_vars) :
    run_steps (n + 1) P (.Var v) t g = [.bind P v t] := by
  refine if_neg ?_
  rintro rfl
  exact h (.head _)

theorem run_steps_right (h : ∀ w, t ≠ .Var w) :
    run_steps (n + 1) P t (.Var v) g = [.bind P v t] := by
  cases t with
  | Var w => exact absurd rfl (h w)
  | _ => rfl

theorem run_steps_arrow {a₁ a₂ a₂' b₁ b₂ b₂' : MonoType}
    (h₁ : unify_with_fresh n a₁ b₁ g = .ok (s₁, g₁)) (ha : s₁.apply n a₂ = .ok a₂')
    (hb : s₁.apply n b₂ = .ok b₂') :
    run_steps (n + 1) P (.Arrow a₁ a₂) (.Arrow b₁ b₂) g =
      run_steps n P a₁ b₁ g ++ run_steps n (s₁ :: P) a₂' b₂' g₁ := by
  simp only [run_steps, h₁, ha, hb]

theorem run_steps_row (k : RowKind) (a b : RowType) :
    run_steps (n + 1) P (k.wrap a) (k.wrap b) g =
      row_steps (unify_with_fresh n) (run_steps n) P k n a b g := by
  cases k <;> rfl

theorem run_steps_typed {va vb ea ea' eb eb' : RowType}
    (hv : unify_row_kind (unify_with_fresh n) .record n va vb g = .ok (s, g₁))
    (ha : s.apply_effect_row n ea = .ok ea') (hb : s.apply_effect_row n eb = .ok eb') :
    run_steps (n + 1) P (.Typed va ea) (.Typed vb eb) g =
      row_steps (unify_with_fresh n) (run_steps n) P .record n va vb g ++
        row_steps (unify_with_fresh n) (run_steps n) (s :: P) .effect n ea' eb' g₁ := by
  simp only [run_steps, hv, ha, hb]

end

end paideia_as_shell_hm
