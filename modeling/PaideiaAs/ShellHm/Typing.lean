-- The typing rules that the inference answers to: Hindley and Milner's, over a
-- theory that says what the types are, which of them are taken as equal and
-- what an instance of a scheme is. Without rows the types are the plain ones.
import PaideiaAs.ShellHm.Infer
import PaideiaAs.ShellHm.PlainUnify

open Assoc

namespace paideia_as_shell_hm

structure Theory where
  IsType : MonoType → Prop
  Equal : MonoType → MonoType → Prop
  Instance : TypeScheme → MonoType → Prop

def Lit.type : Lit → MonoType
  | .Int => .Con "Int"
  | .Str => .Con "Str"

mutual

inductive HasType (T : Theory) : TypeEnv → Expr → MonoType → Prop where
  | var {Γ x scheme τ} : Γ.lookup x = some scheme → T.Instance scheme τ → HasType T Γ (.Var x) τ
  | lit {Γ} (l : Lit) : HasType T Γ (.Lit l) l.type
  | lam {Γ x body τ τ'} : T.IsType τ → HasType T (Γ.extend x ⟨[], τ⟩) body τ' →
      HasType T Γ (.Lam x body) (.Arrow τ τ')
  | app {Γ f arg τ τ'} : HasType T Γ f (.Arrow τ τ') → HasType T Γ arg τ →
      HasType T Γ (.App f arg) τ'
  | let_ {Γ x val body τ τ'} (quantified : List TypeVar) : HasType T Γ val τ →
      (∀ q ∈ quantified, q ∉ Γ.free_vars) → HasType T (Γ.extend x ⟨quantified, τ⟩) body τ' →
      HasType T Γ (.Let x val body) τ'
  | record {Γ fields tys} : HasTypes T Γ fields tys →
      HasType T Γ (.RecordLit fields) (.Record (RowType.from_map tys none))
  | field {Γ receiver row name τ} : HasType T Γ receiver (.Record row) → row.get name = some τ →
      HasType T Γ (.Field receiver name) τ
  | equal {Γ e τ τ'} : HasType T Γ e τ → T.Equal τ τ' → T.IsType τ' → HasType T Γ e τ'

/-- The fields of a record literal, one by one. -/
inductive HasTypes (T : Theory) : TypeEnv → FieldExprs → Fields → Prop where
  | nil {Γ} : HasTypes T Γ .nil []
  | cons {Γ name e rest τ tys} : HasType T Γ e τ → HasTypes T Γ rest tys →
      HasTypes T Γ (.cons name e rest) ((name, τ) :: tys)

end

/-- Types without rows; a quantified variable stands for any of them. -/
def Theory.plain : Theory where
  IsType := MonoType.Plain
  Equal := Eq
  Instance scheme τ := ∃ σ : TypeVar → MonoType, (∀ v, (σ v).Plain) ∧
    (∀ v, v ∉ scheme.quantified → σ v = .Var v) ∧ τ = scheme.body.subst σ

/-- The rules that go by the shape of the expression. -/
inductive HasType.Rule (T : Theory) : TypeEnv → Expr → MonoType → Prop where
  | var {Γ x scheme τ} : Γ.lookup x = some scheme → T.Instance scheme τ → Rule T Γ (.Var x) τ
  | lit {Γ} (l : Lit) : Rule T Γ (.Lit l) l.type
  | lam {Γ x body τ τ'} : T.IsType τ → HasType T (Γ.extend x ⟨[], τ⟩) body τ' →
      Rule T Γ (.Lam x body) (.Arrow τ τ')
  | app {Γ f arg τ τ'} : HasType T Γ f (.Arrow τ τ') → HasType T Γ arg τ →
      Rule T Γ (.App f arg) τ'
  | let_ {Γ x val body τ τ'} (quantified : List TypeVar) : HasType T Γ val τ →
      (∀ q ∈ quantified, q ∉ Γ.free_vars) → HasType T (Γ.extend x ⟨quantified, τ⟩) body τ' →
      Rule T Γ (.Let x val body) τ'
  | record {Γ fields tys} : HasTypes T Γ fields tys →
      Rule T Γ (.RecordLit fields) (.Record (RowType.from_map tys none))
  | field {Γ receiver row name τ} : HasType T Γ receiver (.Record row) → row.get name = some τ →
      Rule T Γ (.Field receiver name) τ

/-- Up to equal types, the shape of the expression says which rule came last. -/
theorem HasType.last_rule {T : Theory} (hrefl : ∀ τ, T.Equal τ τ)
    (htrans : ∀ τ τ' τ'', T.Equal τ τ' → T.Equal τ' τ'' → T.Equal τ τ'') :
    ∀ {Γ : TypeEnv} {e : Expr} {τ : MonoType}, HasType T Γ e τ →
      ∃ τ₀, Rule T Γ e τ₀ ∧ T.Equal τ₀ τ
  | _, _, _, .var hx hi => ⟨_, .var hx hi, hrefl _⟩
  | _, _, _, .lit l => ⟨_, .lit l, hrefl _⟩
  | _, _, _, .lam ht hb => ⟨_, .lam ht hb, hrefl _⟩
  | _, _, _, .app hf ha => ⟨_, .app hf ha, hrefl _⟩
  | _, _, _, .let_ qs hv hq hb => ⟨_, .let_ qs hv hq hb, hrefl _⟩
  | _, _, _, .record hf => ⟨_, .record hf, hrefl _⟩
  | _, _, _, .field hr hg => ⟨_, .field hr hg, hrefl _⟩
  | _, _, _, .equal h he _ => by
    obtain ⟨τ₀, hr, h₀⟩ := last_rule hrefl htrans h
    exact ⟨τ₀, hr, htrans _ _ _ h₀ he⟩

/-- Without rows equal types are the same, so the last rule goes by the shape. -/
theorem HasType.plain_rule {Γ : TypeEnv} {e : Expr} {τ : MonoType}
    (h : HasType Theory.plain Γ e τ) : Rule Theory.plain Γ e τ := by
  obtain ⟨τ₀, hr, he⟩ := h.last_rule (fun _ => rfl) fun _ _ _ h h' => Eq.trans h h'
  cases he
  exact hr

end paideia_as_shell_hm
