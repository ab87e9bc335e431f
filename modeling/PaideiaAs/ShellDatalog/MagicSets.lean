-- The magic-set rewrite: the adornments that a query demands, the guarded
-- copies of the rules, the supplementary rules, and the query by way of the
-- rewritten program.
import PaideiaAs.ShellDatalog.Perfect

namespace paideia_as_shell_datalog

/-- One flag for each position, `true` where it is bound. -/
abbrev Adornment := List Bool

def magic_pred_name (pred : String) (adornment : Adornment) : String :=
  "magic_" ++ pred ++ "_" ++ String.ofList (adornment.map fun b => if b then 'b' else 'f')

def at_bound {α : Type} (xs : List α) (adornment : Adornment) : List α :=
  ((xs.zip adornment).filter Prod.snd).map Prod.fst

/-- The guard of an atom; an adornment with no bound position has none. -/
def build_magic_atom (source : Atom) (adornment : Adornment) : Option Atom :=
  let args := at_bound source.terms adornment
  if args.isEmpty then none
  else some { predicate := magic_pred_name source.predicate adornment, terms := args }

def compute_adornment (a : Atom) (bound_vars : List String) : Adornment :=
  a.terms.map fun
    | .Const _ => true
    | .Var name => bound_vars.contains name
    | .Bound _ => false

def head_bound_vars (head : Atom) (adornment : Adornment) : List String :=
  (at_bound head.terms adornment).filterMap fun
    | .Var name => some name
    | _ => none

/-- The walk of `propagate_sip` over a body: the calls of `on_idb_body`. -/
def sip_goals (idb : List String) : List BodyGoal → List String → List (String × Adornment)
  | [], _ => []
  | .Negative _ :: body, bound_vars => sip_goals idb body bound_vars
  | .Positive a :: body, bound_vars =>
    (if a.predicate ∈ idb then [(a.predicate, compute_adornment a bound_vars)] else []) ++
      sip_goals idb body (bound_vars ++ a.vars)

def propagate_sip (rule : Rule) (adr : Adornment) (idb : List String) : List (String × Adornment) :=
  sip_goals idb rule.body (head_bound_vars rule.head adr)

/-- The predicates of the heads. -/
def Program.idb (p : Program) : List String := p.rules.map fun rule => rule.head.predicate

/-- What an adorned predicate puts on the worklist. -/
def Program.demands (p : Program) (pred : String) (adr : Adornment) : List (String × Adornment) :=
  p.rules.flatMap fun rule =>
    if rule.head.predicate ≠ pred ∨ rule.head.terms.length ≠ adr.length then []
    else propagate_sip rule adr p.idb

/-- The search over adornments. -/
def adorn (p : Program) : Nat → List (String × Adornment) → List (String × Adornment) →
    Outcome (List (String × Adornment))
  | 0, _, _ => .error .div
  | _ + 1, adorned, [] => .ok adorned
  | fuel + 1, adorned, (pred, adr) :: worklist =>
    if (pred, adr) ∈ adorned then adorn p fuel adorned worklist
    else adorn p fuel (adorned ++ [(pred, adr)]) (worklist ++ p.demands pred adr)

/-- The goals of a supplementary rule: the guard and the goals before. -/
def magic_body (magic_guard : Option Atom) (prev_body : List Atom) : List BodyGoal :=
  (magic_guard.toList ++ prev_body).map BodyGoal.Positive

/-- The walk over a body that gives the supplementary rules, and a fact for
one without a body. -/
def supplementary (idb : List String) (adorned : List (String × Adornment))
    (magic_guard : Option Atom) : List BodyGoal → List String → List Atom → List Rule × List Atom
  | [], _, _ => ([], [])
  | .Negative _ :: body, bound_vars, prev_body =>
    supplementary idb adorned magic_guard body bound_vars prev_body
  | .Positive a :: body, bound_vars, prev_body =>
    let rest := supplementary idb adorned magic_guard body (bound_vars ++ a.vars) (prev_body ++ [a])
    let beta := compute_adornment a bound_vars
    if a.predicate ∈ idb ∧ (a.predicate, beta) ∈ adorned then
      match build_magic_atom a beta with
      | none => rest
      | some bi_magic =>
        if (magic_body magic_guard prev_body).isEmpty then
          (rest.1, if bi_magic.is_ground then bi_magic :: rest.2 else rest.2)
        else ({ head := bi_magic, body := magic_body magic_guard prev_body } :: rest.1, rest.2)
    else rest

/-- The rule with its guard in front. -/
def guarded (rule : Rule) (adr : Adornment) : Rule where
  head := rule.head
  body := (build_magic_atom rule.head adr).toList.map BodyGoal.Positive ++ rule.body

/-- The rules and the facts for one rule under one adornment of its head. -/
def rewrite_rule (idb : List String) (adorned : List (String × Adornment)) (rule : Rule)
    (adr : Adornment) : List Rule × List Atom :=
  let more := supplementary idb adorned (build_magic_atom rule.head adr) rule.body
    (head_bound_vars rule.head adr) []
  (guarded rule adr :: more.1, more.2)

def head_adornments (adorned : List (String × Adornment)) (rule : Rule) : List Adornment :=
  (adorned.filter fun e =>
    e.1 = rule.head.predicate ∧ e.2.length = rule.head.terms.length).map Prod.snd

def query_adornment (q_head : Atom) : Adornment :=
  q_head.terms.map fun
    | .Const _ => true
    | _ => false

/-- The magic fact that starts the rewritten program. -/
def query_seed (q_head : Atom) : List Atom :=
  let seed_terms := at_bound q_head.terms (query_adornment q_head)
  let seed : Atom :=
    { predicate := magic_pred_name q_head.predicate (query_adornment q_head), terms := seed_terms }
  if seed_terms.isEmpty then [] else if seed.is_ground then [seed] else []

/-- The rewritten program for what was adorned. -/
def rewritten (p : Program) (q_head : Atom) (adorned : List (String × Adornment)) : Program :=
  let parts := p.rules.flatMap fun rule =>
    (head_adornments adorned rule).map (rewrite_rule p.idb adorned rule)
  { rules := parts.flatMap Prod.fst
    facts := p.facts ++ parts.flatMap Prod.snd ++ query_seed q_head }

def rewrite (fuel : Nat) (hashes : Hashes) (p : Program) (q : Query) : Outcome Program :=
  match q.goals with
  | [] => .ok p
  | q_head :: _ =>
    if (query_adornment q_head).any id then do
      let adorned ← adorn p fuel [] [(q_head.predicate, query_adornment q_head)]
      .ok (rewritten p q_head (hashes.adorned.order adorned))
    else .ok p

/-- `Evaluator::run_query_via_magic_sets`. -/
def run_query_via_magic_sets (fuel : Nat) (hashes : Hashes) (p : Program) (q : Query) :
    Outcome (Except EvalError (List Binding)) := do
  let rewritten ← rewrite fuel hashes p q
  match ← evaluate_stratified fuel hashes rewritten with
  | .error e => .ok (.error e)
  | .ok db => .ok (query hashes.tuples db q)

/-- The query on the whole program: `Database::from_program`, then `query`. -/
def run_query (fuel : Nat) (hashes : Hashes) (p : Program) (q : Query) :
    Outcome (Except EvalError (List Binding)) := do
  match ← Database.from_program fuel hashes p with
  | .error e => .ok (.error e)
  | .ok db => .ok (query hashes.tuples db q)

end paideia_as_shell_datalog
