-- Substitutions of the shell's type checker. `apply` follows a bound row
-- variable into its row, and so it has an end only when no variable leads
-- back to itself. The last part says what `apply` and `compose` compute when
-- the bindings have an end.
import PaideiaAs.Lib.Outcome
import PaideiaAs.ShellHm.Kinds

open Assoc

namespace paideia_as_shell_hm

open RowType

/-- The `HashMap` of the Rust code, with each variable there once. -/
structure Substitution where
  entries : List (TypeVar × MonoType)
  deriving DecidableEq

mutual

/-- `apply`. The row behind a bound tail is given to `again`. -/
def MonoType.walk (s : Substitution) (again : RowKind → RowType → Outcome RowType) :
    MonoType → Outcome MonoType
  | .Var v => return (s.entries.lookup v).getD (.Var v)
  | .Con name => return .Con name
  | .Arrow a b => do
    let a' ← a.walk s again
    let b' ← b.walk s again
    return .Arrow a' b'
  | .Record row => do
    let row' ← row.walk s again .record
    return .Record row'
  | .EffectRow row => do
    let row' ← row.walk s again .effect
    return .EffectRow row'
  | .Typed v e => do
    let v' ← v.walk s again .record
    let e' ← e.walk s again .effect
    return .Typed v' e'

/-- `apply_row` and `apply_effect_row`. -/
def RowType.walk (s : Substitution) (again : RowKind → RowType → Outcome RowType) (k : RowKind) :
    RowType → Outcome RowType
  | .Empty => return .Empty
  | .RowVar v =>
    match s.entries.lookup v with
    | none => return .RowVar v
    | some t =>
      match k, t with
      | .record, .Record next => again .record next
      | .effect, .EffectRow next => again .effect next
      | _, .Var w => return .RowVar w
      | _, _ => return .RowVar v
  | .Extend f ty rest => do
    let ty' ← ty.walk s again
    let rest' ← rest.walk s again k
    return k.cons f ty' rest'

end

namespace Substitution

def empty : Substitution := ⟨[]⟩

def singleton (v : TypeVar) (ty : MonoType) : Substitution := ⟨[(v, ty)]⟩

def insert (s : Substitution) (v : TypeVar) (ty : MonoType) : Substitution :=
  ⟨Assoc.insert s.entries v ty⟩

def lookup (s : Substitution) (v : TypeVar) : Option MonoType := s.entries.lookup v

/-- The fuel bounds how many rows are entered through a bound tail. -/
def apply_rows (s : Substitution) : Nat → RowKind → RowType → Outcome RowType
  | 0, _, _ => .error .div
  | n + 1, k, row => row.walk s (s.apply_rows n) k

def apply (s : Substitution) (n : Nat) (ty : MonoType) : Outcome MonoType :=
  ty.walk s (s.apply_rows n)

def apply_row (s : Substitution) (n : Nat) (row : RowType) : Outcome RowType :=
  row.walk s (s.apply_rows n) .record

def apply_effect_row (s : Substitution) (n : Nat) (row : RowType) : Outcome RowType :=
  row.walk s (s.apply_rows n) .effect

/-- `self ∘ other`. The bindings of `self` win when both bind a variable. -/
def compose (self : Substitution) (n : Nat) (other : Substitution) : Outcome Substitution := do
  let out ← other.entries.mapM fun e => do
    let ty ← self.apply n e.2
    return (e.1, ty)
  return ⟨self.entries.foldr (fun e acc => Assoc.insert acc e.1 e.2) out⟩

/-- Quantified variables are shadowed. -/
def apply_scheme (s : Substitution) (n : Nat) (scheme : TypeScheme) : Outcome TypeScheme :=
  if scheme.quantified.isEmpty then do
    let body ← s.apply n scheme.body
    return ⟨[], body⟩
  else do
    let body ← (⟨without s.entries scheme.quantified⟩ : Substitution).apply n scheme.body
    return ⟨scheme.quantified, body⟩

@[simp] theorem lookup_empty (v : TypeVar) : empty.lookup v = none := rfl

theorem lookup_singleton (v w : TypeVar) (ty : MonoType) :
    (singleton v ty).lookup w = if w = v then some ty else none := by
  unfold singleton lookup
  rw [lookup_cons_ite, List.lookup_nil]

theorem lookup_singleton_some {v w : TypeVar} {ty t : MonoType}
    (h : (singleton v ty).lookup w = some t) : w = v ∧ t = ty := by
  rw [lookup_singleton] at h
  split at h
  · cases h
    exact ⟨by assumption, rfl⟩
  · cases h

theorem lookup_insert (s : Substitution) (v w : TypeVar) (ty : MonoType) :
    (s.insert v ty).lookup w = if w = v then some ty else s.lookup w :=
  Assoc.lookup_insert s.entries v w ty

theorem lookup_mapM {f : MonoType → Outcome MonoType} {es out : List (TypeVar × MonoType)}
    (h : (es.mapM fun e => do let ty ← f e.2; return (e.1, ty)) = .ok out) (v : TypeVar) :
    (es.lookup v = none ∧ out.lookup v = none) ∨
      ∃ t t', es.lookup v = some t ∧ f t = .ok t' ∧ out.lookup v = some t' := by
  induction es generalizing out with
  | nil =>
    simp only [List.mapM_nil] at h
    cases h
    exact .inl ⟨rfl, rfl⟩
  | cons e es ih =>
    obtain ⟨w, t⟩ := e
    simp only [List.mapM_cons, Outcome.bind_eq_ok] at h
    obtain ⟨a, ⟨t', ht', ha⟩, out', hout', ho⟩ := h
    cases ha
    cases ho
    rw [lookup_cons_ite, lookup_cons_ite]
    by_cases hv : v = w
    · rw [if_pos hv, if_pos hv]
      exact .inr ⟨t, t', rfl, ht', rfl⟩
    · rw [if_neg hv, if_neg hv]
      exact ih hout'

theorem lookup_compose {self other s : Substitution} {n : Nat}
    (h : self.compose n other = .ok s) (v : TypeVar) :
    (∃ t, self.lookup v = some t ∧ s.lookup v = some t) ∨
    (self.lookup v = none ∧ other.lookup v = none ∧ s.lookup v = none) ∨
    ∃ t t', self.lookup v = none ∧ other.lookup v = some t ∧ self.apply n t = .ok t' ∧
      s.lookup v = some t' := by
  unfold compose at h
  obtain ⟨out, hout, hs⟩ := Outcome.bind_eq_ok.mp h
  cases hs
  have hl : ∀ w, (⟨self.entries.foldr (fun e acc => Assoc.insert acc e.1 e.2) out⟩ :
      Substitution).lookup w = (self.lookup w).or (out.lookup w) :=
    fun w => lookup_foldr_insert self.entries out w
  rw [hl]
  rcases hv : self.lookup v with _ | t
  · rcases lookup_mapM hout v with ⟨h1, h2⟩ | ⟨t, t', h1, h2, h3⟩
    · exact .inr (.inl ⟨rfl, h1, by simp [h2]⟩)
    · exact .inr (.inr ⟨t, t', rfl, h1, h2, by simp [h3]⟩)
  · exact .inl ⟨t, rfl, by simp⟩

theorem lookup_compose_some {self other s : Substitution} {n : Nat} {v : TypeVar} {t : MonoType}
    (h : self.compose n other = .ok s) (hv : s.lookup v = some t) :
    self.lookup v = some t ∨ ∃ t₁, self.lookup v = none ∧ other.lookup v = some t₁ ∧
      self.apply n t₁ = .ok t := by
  rcases lookup_compose h v with ⟨t', h2, h3⟩ | ⟨-, -, h3⟩ | ⟨t₁, t', h2, h1, ha, h3⟩ <;>
    rw [h3] at hv <;> cases hv
  · exact .inl h2
  · exact .inr ⟨t₁, h2, h1, ha⟩

end Substitution

end paideia_as_shell_hm
