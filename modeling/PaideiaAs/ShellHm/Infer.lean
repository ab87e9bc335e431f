-- Algorithm W of the shell: expressions, environments of type schemes, and the
-- inference itself, which hands its fuel to the substitutions and unifications
-- on the way.
import PaideiaAs.ShellHm.Unify

open Assoc

namespace paideia_as_shell_hm

open List (length_cons mem_append mem_cons mem_singleton)

inductive Lit where
  | Int
  | Str
  deriving DecidableEq

mutual

inductive Expr where
  | Var (name : String)
  | Lit (l : Lit)
  | Lam (param : String) (body : Expr)
  | App (f arg : Expr)
  | Let (name : String) (val body : Expr)
  | RecordLit (fields : FieldExprs)
  | Field (receiver : Expr) (name : String)

/-- The `HashMap` of a record literal, in name order: the order in which the
inference goes through it. -/
inductive FieldExprs where
  | nil
  | cons (name : String) (e : Expr) (rest : FieldExprs)

end

/-- No record literal and no projection. -/
def Expr.RecordFree : Expr → Prop
  | .Var _ => True
  | .Lit _ => True
  | .Lam _ body => body.RecordFree
  | .App f arg => f.RecordFree ∧ arg.RecordFree
  | .Let _ val body => val.RecordFree ∧ body.RecordFree
  | .RecordLit _ => False
  | .Field _ _ => False

/-! ## Environments -/

structure TypeEnv where
  entries : List (String × TypeScheme)
  deriving DecidableEq

namespace TypeEnv

def new : TypeEnv := ⟨[]⟩

def extend (env : TypeEnv) (name : String) (scheme : TypeScheme) : TypeEnv :=
  ⟨Assoc.insert env.entries name scheme⟩

def lookup (env : TypeEnv) (name : String) : Option TypeScheme := env.entries.lookup name

def free_vars (env : TypeEnv) : List TypeVar := env.entries.flatMap fun e => e.2.free_vars

def map_schemes (env : TypeEnv) (f : TypeScheme → Outcome TypeScheme) : Outcome TypeEnv := do
  let m ← env.entries.mapM fun e => do
    let scheme ← f e.2
    return (e.1, scheme)
  return ⟨m⟩

/-- No scheme has a free variable. A name is bound once, as in the `HashMap`. -/
structure Closed (env : TypeEnv) : Prop where
  keyed : (keys env.entries).Nodup
  closed : ∀ v, v ∉ env.free_vars

/-- The generator is past every variable of the schemes, free or quantified. -/
def Below (env : TypeEnv) (g : FreshVarGen) : Prop :=
  ∀ x scheme v, (x, scheme) ∈ env.entries → v ∈ scheme.body.free_vars ∨ v ∈ scheme.quantified →
    v < g.next

end TypeEnv

def Substitution.apply_env (s : Substitution) (n : Nat) (env : TypeEnv) : Outcome TypeEnv :=
  env.map_schemes (s.apply_scheme n)

/-- The loop of `instantiate` that gives each quantified variable a fresh one. -/
def rename_quantified : List TypeVar → Substitution → FreshVarGen →
    Outcome (Substitution × FreshVarGen)
  | [], renamed, g => .ok (renamed, g)
  | q :: quantified, renamed, g => do
    let (v, g') ← g.fresh
    rename_quantified quantified (renamed.insert q (.Var v)) g'

def instantiate (n : Nat) (scheme : TypeScheme) (g : FreshVarGen) :
    Outcome (MonoType × FreshVarGen) :=
  if scheme.quantified.isEmpty then .ok (scheme.body, g)
  else do
    let (renamed, g') ← rename_quantified scheme.quantified .empty g
    let ty ← renamed.apply n scheme.body
    return (ty, g')

mutual

/-- `out` are the variables pushed so far; `seen` of the Rust code holds the same ones. -/
def collect_free_in_order (env_fv : List TypeVar) : MonoType → List TypeVar → List TypeVar
  | .Var v, out => if v ∉ env_fv ∧ v ∉ out then out ++ [v] else out
  | .Con _, out => out
  | .Arrow a b, out => collect_free_in_order env_fv b (collect_free_in_order env_fv a out)
  | .Record row, out => collect_free_in_order_row env_fv row out
  | .EffectRow row, out => collect_free_in_order_row env_fv row out
  | .Typed value_row effect_row, out =>
    collect_free_in_order_row env_fv effect_row (collect_free_in_order_row env_fv value_row out)

def collect_free_in_order_row (env_fv : List TypeVar) : RowType → List TypeVar → List TypeVar
  | .Empty, out => out
  | .RowVar v, out => if v ∉ env_fv ∧ v ∉ out then out ++ [v] else out
  | .Extend _ ty rest, out =>
    collect_free_in_order_row env_fv rest (collect_free_in_order env_fv ty out)

end

def generalize (env : TypeEnv) (ty : MonoType) : TypeScheme :=
  ⟨collect_free_in_order env.free_vars ty [], ty⟩

/-! ## The inference -/

inductive InferError where
  | UnboundVar (name : String)
  | UnifyError (e : UnifyError)

inductive InferFailure where
  | fault (f : Fault)
  | err (e : InferError) (g : FreshVarGen)

abbrev Infer (α : Type) := Except InferFailure α

def inferred {α : Type} : Outcome α → Infer α
  | .ok a => .ok a
  | .error f => .error (.fault f)

/-- `?` on the result of the unifier. -/
def unified {α : Type} : Call α → Infer α
  | .ok a => .ok a
  | .error (.fault f) => .error (.fault f)
  | .error (.err e g) => .error (.err (.UnifyError e) g)

mutual

def infer (n : Nat) (env : TypeEnv) : Expr → FreshVarGen →
    Infer (Substitution × MonoType × FreshVarGen)
  | .Var name, g =>
    match env.lookup name with
    | none => .error (.err (.UnboundVar name) g)
    | some scheme => do
      let (ty, g') ← inferred (instantiate n scheme g)
      return (.empty, ty, g')
  | .Lit .Int, g => .ok (.empty, .Con "Int", g)
  | .Lit .Str, g => .ok (.empty, .Con "Str", g)
  | .Lam param body, g => do
    let (a, g₀) ← inferred g.fresh
    let (s₁, t₁, g₁) ← infer n (env.extend param ⟨[], .Var a⟩) body g₀
    let ta ← inferred (s₁.apply n (.Var a))
    return (s₁, .Arrow ta t₁, g₁)
  | .App f arg, g => do
    let (s₁, tf, g₁) ← infer n env f g
    let env₁ ← inferred (s₁.apply_env n env)
    let (s₂, ta, g₂) ← infer n env₁ arg g₁
    let (r, g₃) ← inferred g₂.fresh
    let tf' ← inferred (s₂.apply n tf)
    let (s₃, g₄) ← unified (unify_with_fresh n tf' (.Arrow ta (.Var r)) g₃)
    let s₂₁ ← inferred (s₂.compose n s₁)
    let composed ← inferred (s₃.compose n s₂₁)
    let result ← inferred (s₃.apply n (.Var r))
    return (composed, result, g₄)
  | .Let name val body, g => do
    let (s₁, tv, g₁) ← infer n env val g
    let env₁ ← inferred (s₁.apply_env n env)
    let (s₂, tb, g₂) ← infer n (env₁.extend name (generalize env₁ tv)) body g₁
    let composed ← inferred (s₂.compose n s₁)
    return (composed, tb, g₂)
  | .RecordLit fields, g => do
    let (subst, typed_fields, g') ← infer_fields n env .empty [] fields g
    return (subst, .Record (RowType.from_map typed_fields none), g')
  | .Field receiver name, g => do
    let (s₁, tr, g₁) ← infer n env receiver g
    let (field_ty, g₂) ← inferred g₁.fresh
    let (rest_row, g₃) ← inferred g₂.fresh
    let tr' ← inferred (s₁.apply n tr)
    let (s₂, g₄) ← unified (unify_with_fresh n tr'
      (.Record (.Extend name (.Var field_ty) (.RowVar rest_row))) g₃)
    let composed ← inferred (s₂.compose n s₁)
    let result ← inferred (s₂.apply n (.Var field_ty))
    return (composed, result, g₄)

/-- The loop over the fields of a record literal. -/
def infer_fields (n : Nat) (env_cur : TypeEnv) (subst : Substitution) (typed_fields : Fields) :
    FieldExprs → FreshVarGen → Infer (Substitution × Fields × FreshVarGen)
  | .nil, g => .ok (subst, typed_fields, g)
  | .cons name e rest, g => do
    let (s, t, g₁) ← infer n env_cur e g
    let subst' ← inferred (s.compose n subst)
    let env' ← inferred (s.apply_env n env_cur)
    let typed' ← inferred (typed_fields.mapM fun p => do
      let ty ← s.apply n p.2
      return (p.1, ty))
    infer_fields n env' subst' (Assoc.insert typed' name t) rest g₁

end

/-! ## Variables of schemes and environments -/

section

variable {env : TypeEnv} {scheme : TypeScheme} {t : MonoType}
  {v : TypeVar} {x : String} {k : Nat} {qs : List TypeVar} {s : Substitution}

theorem mem_scheme_free_vars :
    v ∈ scheme.free_vars ↔ v ∈ scheme.body.free_vars ∧ v ∉ scheme.quantified := by
  simp [TypeScheme.free_vars]

theorem mem_env_free_vars :
    v ∈ env.free_vars ↔ ∃ x scheme, (x, scheme) ∈ env.entries ∧ v ∈ scheme.free_vars := by
  simp [TypeEnv.free_vars]

theorem mem_extend {y : String} {scheme' : TypeScheme} :
    (y, scheme') ∈ (env.extend x scheme).entries ↔
      (y = x ∧ scheme' = scheme) ∨ (y ≠ x ∧ (y, scheme') ∈ env.entries) := by
  simp [TypeEnv.extend, Assoc.insert, and_comm]

theorem lookup_extend {y : String} :
    (env.extend x scheme).lookup y = if y = x then some scheme else env.lookup y :=
  Assoc.lookup_insert env.entries x y scheme

/-! ## Generalisation -/

theorem mem_collect_var (fv : List TypeVar) (w : TypeVar) (out : List TypeVar) (v : TypeVar) :
    v ∈ collect_free_in_order fv (.Var w) out ↔ v ∈ out ∨ (v = w ∧ v ∉ fv) := by
  unfold collect_free_in_order
  split
  next hw =>
    rw [mem_append, mem_singleton]
    constructor
    · rintro (h | rfl)
      · exact .inl h
      · exact .inr ⟨rfl, hw.1⟩
    · rintro (h | ⟨rfl, -⟩)
      · exact .inl h
      · exact .inr rfl
  next hw =>
    constructor
    · exact .inl
    · rintro (h | ⟨rfl, hn⟩)
      · exact h
      · by_contra hc
        exact hw ⟨hn, hc⟩

mutual

theorem mem_collect (fv : List TypeVar) (t : MonoType) (out : List TypeVar) (v : TypeVar) :
    v ∈ collect_free_in_order fv t out ↔ v ∈ out ∨ (v ∈ t.free_vars ∧ v ∉ fv) := by
  match t with
  | .Var w => rw [mem_collect_var, MonoType.free_vars, mem_singleton]
  | .Con _ => simp [collect_free_in_order, MonoType.free_vars]
  | .Arrow a b =>
    simp only [collect_free_in_order, mem_collect fv b, mem_collect fv a, MonoType.free_vars,
      mem_append]
    rw [or_and_right, or_assoc]
  | .Record r => exact mem_collect_row fv r out v
  | .EffectRow r => exact mem_collect_row fv r out v
  | .Typed r e =>
    simp only [collect_free_in_order, mem_collect_row fv e, mem_collect_row fv r,
      MonoType.free_vars, mem_append]
    rw [or_and_right, or_assoc]

theorem mem_collect_row (fv : List TypeVar) (r : RowType) (out : List TypeVar) (v : TypeVar) :
    v ∈ collect_free_in_order_row fv r out ↔ v ∈ out ∨ (v ∈ r.free_vars ∧ v ∉ fv) := by
  match r with
  | .Empty => simp [collect_free_in_order_row, RowType.free_vars]
  | .RowVar w =>
    have h := mem_collect_var fv w out v
    simpa only [collect_free_in_order, collect_free_in_order_row, RowType.free_vars,
      mem_singleton] using h
  | .Extend f ty rest =>
    simp only [collect_free_in_order_row, mem_collect_row fv rest, mem_collect fv ty,
      RowType.free_vars, mem_append]
    rw [or_and_right, or_assoc]

end

/-- The quantified variables are those of the type that the environment does not have. -/
theorem mem_generalize :
    v ∈ (generalize env t).quantified ↔ v ∈ t.free_vars ∧ v ∉ env.free_vars := by
  simp [generalize, mem_collect]

theorem generalize_free_vars :
    v ∈ (generalize env t).free_vars ↔ v ∈ t.free_vars ∧ v ∈ env.free_vars := by
  rw [mem_scheme_free_vars, mem_generalize]
  simp only [generalize]
  tauto

theorem mem_generalized_free_vars (hv : v ∈ (env.extend x (generalize env t)).free_vars) :
    v ∈ env.free_vars := by
  obtain ⟨y, scheme, hm, hs⟩ := mem_env_free_vars.mp hv
  rcases mem_extend.mp hm with ⟨-, rfl⟩ | ⟨-, hm⟩
  · exact (generalize_free_vars.mp hs).2
  · exact mem_env_free_vars.mpr ⟨y, scheme, hm, hs⟩

/-! ## The renaming of an instance -/

/-- The renaming that `instantiate` builds when the next variable is `k`. -/
def renamingFrom : List TypeVar → Substitution → Nat → Substitution
  | [], s, _ => s
  | q :: qs, s, k => renamingFrom qs (s.insert q (.Var k)) (k + 1)

theorem rename_quantified_eq (qs : List TypeVar) (s : Substitution) {max : Nat} (hk : k ≤ max) :
    rename_quantified qs s { next := k, max } =
      if k + qs.length ≤ max then .ok (renamingFrom qs s k, { next := k + qs.length, max })
      else .error .panic := by
  induction qs generalizing s k with
  | nil => simp [rename_quantified, renamingFrom, hk]
  | cons q qs ih =>
    unfold rename_quantified FreshVarGen.fresh
    by_cases hlt : k < max
    · have hlen : k + (q :: qs).length = k + 1 + qs.length := by
        simp only [length_cons]
        omega
      rw [hlen]
      simp only [hlt, if_true, Outcome.ok_bind]
      exact ih (s.insert q (.Var k)) hlt
    · have hno : ¬ k + (q :: qs).length ≤ max := by
        simp only [length_cons]
        omega
      simp only [hlt, if_false, Outcome.error_bind, hno]

theorem renamingFrom_other (hv : v ∉ qs) : (renamingFrom qs s k).lookup v = s.lookup v := by
  induction qs generalizing s k with
  | nil => rfl
  | cons q qs ih =>
    simp only [mem_cons, not_or] at hv
    rw [renamingFrom, ih hv.2, Substitution.lookup_insert, if_neg hv.1]

theorem renamingFrom_mem {qs : List TypeVar} {s : Substitution} {k : Nat} {v : TypeVar}
    (hv : v ∈ qs) : ∃ w, k ≤ w ∧ w < k + qs.length ∧
      (renamingFrom qs s k).lookup v = some (.Var w) := by
  induction qs generalizing s k with
  | nil => cases hv
  | cons q qs ih =>
    by_cases hq : v ∈ qs
    · obtain ⟨w, h1, h2, h3⟩ := @ih (s.insert q (.Var k)) (k + 1) hq
      refine ⟨w, by omega, ?_, h3⟩
      simp only [length_cons]
      omega
    · have hvq : v = q := by
        rcases mem_cons.mp hv with h | h
        · exact h
        · exact absurd h hq
      refine ⟨k, le_refl _, by simp, ?_⟩
      rw [renamingFrom, renamingFrom_other hq, Substitution.lookup_insert, if_pos hvq]

/-- No two quantified variables are renamed to the same one. -/
theorem renamingFrom_inj {v' w : TypeVar}
    (hv : v ∈ qs) (hv' : v' ∈ qs) (h : (renamingFrom qs s k).lookup v = some (.Var w))
    (h' : (renamingFrom qs s k).lookup v' = some (.Var w)) : v = v' := by
  induction qs generalizing s k with
  | nil => cases hv
  | cons q qs ih =>
    rw [renamingFrom] at h h'
    -- the last place of a variable decides, and `k` is not drawn again
    have hhead : ∀ x y : TypeVar, x ∈ q :: qs → x ∉ qs → y ∈ qs →
        (renamingFrom qs (s.insert q (.Var k)) (k + 1)).lookup x = some (.Var w) →
        (renamingFrom qs (s.insert q (.Var k)) (k + 1)).lookup y = some (.Var w) → False := by
      intro x y hx hxq hy h1 h2
      have hxe : x = q := by
        rcases mem_cons.mp hx with e | e
        · exact e
        · exact absurd e hxq
      rw [renamingFrom_other hxq, Substitution.lookup_insert, if_pos hxe] at h1
      obtain ⟨w', hlo, -, hw'⟩ := @renamingFrom_mem qs (s.insert q (.Var k)) (k + 1) y hy
      rw [h2] at hw'
      cases h1
      cases hw'
      exact absurd hlo (Nat.not_succ_le_self _)
    by_cases h1 : v ∈ qs
    · by_cases h2 : v' ∈ qs
      · exact ih h1 h2 h h'
      · exact (hhead v' v hv' h2 h1 h' h).elim
    · by_cases h2 : v' ∈ qs
      · exact (hhead v v' hv h1 h2 h h').elim
      · rcases mem_cons.mp hv with e | e
        · rcases mem_cons.mp hv' with e' | e'
          · rw [e, e']
          · exact absurd e' h2
        · exact absurd e h1

end

end paideia_as_shell_hm
