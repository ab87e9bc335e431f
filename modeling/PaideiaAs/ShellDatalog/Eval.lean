-- The evaluator: tables of ground tuples, bindings, unification of an atom
-- with a tuple, the semi-naive loop of a stratum, the evaluation of a
-- program stratum by stratum, and queries.
import PaideiaAs.ShellDatalog.Stratify

namespace paideia_as_shell_datalog

abbrev Tuple := List Value

/-- The tables of a database, as the set of their tuples, each with the name
of its predicate. The arity in the key of a table is the length of its
tuples. -/
abbrev Database := List (String × Tuple)

instance lawfulFact : LawfulBEq (String × Tuple) := inferInstance

namespace Database

/-- The table of a key, in the order in which it is walked. -/
def get (hash : HashOrder Tuple) (db : Database) (predicate : String) (arity : Nat) : List Tuple :=
  hash.order ((db.filter fun f => f.1 = predicate ∧ f.2.length = arity).map Prod.snd)

def insert (db : Database) (predicate : String) (tuple : Tuple) : Database :=
  if (predicate, tuple) ∈ db then db else db ++ [(predicate, tuple)]

end Database

/-- The orders in which the hash maps of the crate are walked. -/
structure Hashes where
  edges : HashOrder SccEdge
  tuples : HashOrder Tuple
  adorned : HashOrder (String × List Bool)

def Hashes.plain : Hashes where
  edges := HashOrder.plain _
  tuples := HashOrder.plain _
  adorned := HashOrder.plain _

/-- A substitution, as the map from variable names to values. -/
abbrev Binding := String → Option Value

def Binding.new : Binding := fun _ => none

inductive EvalError where
  | UnresolvedPipelineValue (name : String) (atom : Atom)
  | UnstratifiedNegation (cycle : List String)
  deriving DecidableEq

/-- The loop of `unify_atom` over the terms and the tuple. -/
def unify_terms : List Term → Tuple → Binding → Option Binding
  | .Const c :: terms, v :: tuple, b => if c ≠ v then none else unify_terms terms tuple b
  | .Var name :: terms, v :: tuple, b =>
    match b name with
    | some existing => if existing ≠ v then none else unify_terms terms tuple b
    | none => unify_terms terms tuple (Function.update b name (some v))
  | .Bound _ :: _, _ :: _, _ => none
  | _, _, b => some b

def unify_atom (a : Atom) (tuple : Tuple) (base : Binding) : Option Binding :=
  if a.terms.length ≠ tuple.length then none else unify_terms a.terms tuple base

/-- The value of a term under a binding, if it has one. -/
def ground_term (b : Binding) : Term → Option Value
  | .Const v => some v
  | .Var name => b name
  | .Bound _ => none

def ground_atom (a : Atom) (b : Binding) : Option Tuple := a.terms.mapM (ground_term b)

section

variable (hash : HashOrder Tuple)

def extend_with_db (a : Atom) (db : Database) (bindings : List Binding) : List Binding :=
  bindings.flatMap fun b => (db.get hash a.predicate a.arity).filterMap fun tuple =>
    unify_atom a tuple b

def negation_matches (a : Atom) (db : Database) (b : Binding) : Bool :=
  (db.get hash a.predicate a.arity).any fun tuple => (unify_atom a tuple b).isSome

/-- The positive pass: the goals from position `j` on, without the pivot. -/
def positive_pass (db : Database) (pivot : Nat) : Nat → List BodyGoal → List Binding → List Binding
  | _, [], bindings => bindings
  | j, goal :: goals, bindings =>
    if j = pivot then positive_pass db pivot (j + 1) goals bindings
    else match goal with
      | .Positive a =>
        let bindings := extend_with_db hash a db bindings
        if bindings.isEmpty then [] else positive_pass db pivot (j + 1) goals bindings
      | .Negative _ => positive_pass db pivot (j + 1) goals bindings

def negation_pass (db : Database) : List BodyGoal → List Binding → List Binding
  | [], bindings => bindings
  | .Negative a :: goals, bindings =>
    let bindings := bindings.filter fun b => !negation_matches hash a db b
    if bindings.isEmpty then [] else negation_pass db goals bindings
  | .Positive _ :: goals, bindings => negation_pass db goals bindings

/-- The heads that the bindings give, where they are not in the database. -/
def add_heads (head : Atom) (db : Database) (bindings : List Binding) (delta_new : Database) :
    Database :=
  bindings.foldl (fun delta_new b =>
    match ground_atom head b with
    | none => delta_new
    | some head_tuple =>
      if (head.predicate, head_tuple) ∈ db then delta_new
      else delta_new.insert head.predicate head_tuple) delta_new

/-- What one tuple of the delta gives at one pivot. -/
def derive_tuple (rule : Rule) (db : Database) (pivot : Nat) (pivot_atom : Atom)
    (delta_new : Database) (tuple : Tuple) : Database :=
  match unify_atom pivot_atom tuple Binding.new with
  | none => delta_new
  | some base_binding =>
    let bindings := positive_pass hash db pivot 0 rule.body [base_binding]
    if bindings.isEmpty then delta_new
    else
      let bindings := negation_pass hash db rule.body bindings
      if bindings.isEmpty then delta_new else add_heads rule.head db bindings delta_new

def positive_positions (rule : Rule) : List (Nat × Atom) :=
  rule.body.zipIdx.filterMap fun e =>
    match e.1 with
    | .Positive a => some (e.2, a)
    | .Negative _ => none

/-- One round of one rule. A rule without a positive goal has no pivot and
gives nothing. -/
def derive_round (rule : Rule) (db delta_prev delta_new : Database) : Database :=
  (positive_positions rule).foldl (fun delta_new pivot =>
    (delta_prev.get hash pivot.2.predicate pivot.2.arity).foldl
      (derive_tuple hash rule db pivot.1 pivot.2) delta_new) delta_new

/-- The loop over the rounds. -/
def seminaive_loop (rules : List Rule) : Nat → Database → Database → Outcome Database
  | 0, _, _ => .error .div
  | fuel + 1, db, delta_prev =>
    let delta_new := rules.foldl (fun delta_new rule => derive_round hash rule db delta_prev delta_new) []
    let delta_new := delta_new.filter fun f => f ∉ db
    let db := delta_new.foldl (fun db f => db.insert f.1 f.2) db
    if delta_new.length = 0 then .ok db else seminaive_loop rules fuel db delta_new

def seminaive_fixpoint (fuel : Nat) (rules : List Rule) (db : Database) : Outcome Database :=
  seminaive_loop hash rules fuel db db

def answer_goals (db : Database) : List Atom → List Binding → List Binding
  | [], results => results
  | goal :: goals, results =>
    let next := extend_with_db hash goal db results
    if next.isEmpty then next else answer_goals db goals next

end

def reject_bound_terms (a : Atom) : List Term → Except EvalError Unit
  | [] => .ok ()
  | .Bound name :: _ => .error (.UnresolvedPipelineValue name a)
  | _ :: terms => reject_bound_terms a terms

/-- The error keeps the atom; the source keeps its text. -/
def reject_bound (a : Atom) : Except EvalError Unit := reject_bound_terms a a.terms

/-- The atoms of a program in the order in which they are checked. -/
def Program.atoms (p : Program) : List Atom :=
  p.facts ++ p.rules.flatMap fun rule => rule.head :: rule.body.map BodyGoal.atom

def query (hash : HashOrder Tuple) (db : Database) (q : Query) : Except EvalError (List Binding) := do
  q.goals.forM reject_bound
  if q.goals.isEmpty then .ok [Binding.new]
  else .ok (answer_goals hash db q.goals [Binding.new])

/-- The seed of the evaluation: a fact that is not ground is a panic. -/
def seed_facts (db : Database) : List Atom → Outcome Database
  | [] => .ok db
  | a :: facts => do
    let tuple ← Outcome.expect a.as_ground
    seed_facts (db.insert a.predicate tuple) facts

def rule_strata (strata : Strata) (rules : List Rule) : List Nat :=
  (rules.map fun rule => (strata.lookup rule.head.predicate).getD 0).dedup.insertionSort (· ≤ ·)

def rules_of_stratum (strata : Strata) (rules : List Rule) (k : Nat) : List Rule :=
  rules.filter fun rule => (strata.lookup rule.head.predicate).getD 0 = k

def evaluate_stratified (fuel : Nat) (hashes : Hashes) (p : Program) :
    Outcome (Except EvalError Database) :=
  match p.atoms.forM reject_bound with
  | .error e => .ok (.error e)
  | .ok () => do
    match ← compute_strata fuel hashes.edges p with
    | .error (.CycleThroughNegation cycle) => .ok (.error (.UnstratifiedNegation cycle))
    | .ok strata =>
      let db ← seed_facts [] p.facts
      if p.rules.isEmpty then .ok (.ok db)
      else
        let db ← (rule_strata strata p.rules).foldlM
          (fun db k => seminaive_fixpoint hashes.tuples fuel (rules_of_stratum strata p.rules k) db) db
        .ok (.ok db)

/-- `Database::from_program`. -/
def Database.from_program (fuel : Nat) (hashes : Hashes) (p : Program) :
    Outcome (Except EvalError Database) := evaluate_stratified fuel hashes p

/-- `Database::tuples`, with the empty set where the source has `None`. -/
def Database.tuples (db : Database) (predicate : String) (arity : Nat) : List Tuple :=
  (db.filter fun f => f.1 = predicate ∧ f.2.length = arity).map Prod.snd

end paideia_as_shell_datalog
