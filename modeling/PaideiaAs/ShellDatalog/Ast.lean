-- The AST of the shell's Datalog: terms, atoms, body goals, rules, programs
-- and queries, and the dependency graph that the rules of a program put on
-- its predicates.
import PaideiaAs.Lib.Outcome

namespace paideia_as_shell_datalog

/-- `Float` holds the bits of the `f64`: two floats are the same value when
their bits are. -/
inductive Value where
  | Ident (s : String)
  | Str (s : String)
  | Num (n : Int64)
  | Float (bits : UInt64)
  deriving DecidableEq

/-- `Bound` is the pipeline interpolation `$name`. -/
inductive Term where
  | Var (name : String)
  | Const (v : Value)
  | Bound (name : String)
  deriving DecidableEq

structure Atom where
  predicate : String
  terms : List Term
  deriving DecidableEq

namespace Atom

def arity (a : Atom) : Nat := a.terms.length

def is_ground (a : Atom) : Bool :=
  a.terms.all fun
    | .Const _ => true
    | _ => false

def as_ground (a : Atom) : Option (List Value) :=
  a.terms.mapM fun
    | .Const v => some v
    | _ => none

/-- The names of the variables of an atom, in order. -/
def vars (a : Atom) : List String :=
  a.terms.filterMap fun
    | .Var name => some name
    | _ => none

theorem mem_vars {a : Atom} {x : String} : x ∈ a.vars ↔ Term.Var x ∈ a.terms := by
  unfold vars
  rw [List.mem_filterMap]
  constructor
  · rintro ⟨t, ht, hx⟩
    cases t with
    | Var y => cases hx; exact ht
    | Const v => cases hx
    | Bound y => cases hx
  · intro h
    exact ⟨_, h, rfl⟩

end Atom

inductive BodyGoal where
  | Positive (a : Atom)
  | Negative (a : Atom)
  deriving DecidableEq

namespace BodyGoal

def atom : BodyGoal → Atom
  | .Positive a => a
  | .Negative a => a

def is_negated : BodyGoal → Bool
  | .Positive _ => false
  | .Negative _ => true

end BodyGoal

structure Rule where
  head : Atom
  body : List BodyGoal
  deriving DecidableEq

structure Program where
  rules : List Rule
  facts : List Atom
  deriving DecidableEq

/-- A conjunction of goal atoms. -/
structure Query where
  goals : List Atom
  deriving DecidableEq

/-! ## The dependency graph of a program -/

namespace Program

/-- `src` is the predicate of a goal in the body of a rule for `tgt`, and
`neg` says whether the goal is negated. -/
def Depends (p : Program) (src tgt : String) (neg : Bool) : Prop :=
  ∃ rule ∈ p.rules, ∃ goal ∈ rule.body,
    goal.atom.predicate = src ∧ rule.head.predicate = tgt ∧ goal.is_negated = neg

/-- A path of the graph, over goals of either sign. -/
def Path (p : Program) : String → String → Prop :=
  Relation.ReflTransGen fun src tgt => ∃ neg, p.Depends src tgt neg

/-- A cycle with a negated edge: one such edge, and a path back from its end. -/
def CycleThroughNegation (p : Program) : Prop :=
  ∃ src tgt, p.Depends src tgt true ∧ p.Path tgt src

/-- The name is in a fact, in a head or in a body of the program. -/
def Mentions (p : Program) (pred : String) : Prop :=
  (∃ fact ∈ p.facts, fact.predicate = pred) ∨
    (∃ rule ∈ p.rules, rule.head.predicate = pred) ∨
    ∃ rule ∈ p.rules, ∃ goal ∈ rule.body, goal.atom.predicate = pred

end Program

end paideia_as_shell_datalog
