-- Aggregation: the substitutions of a body, put into groups by the values of
-- some variables, and the values of the target in each group reduced to one.
import PaideiaAs.ShellDatalog.Eval
import PaideiaAs.Lib.Extremes

open Assoc

namespace paideia_as_shell_datalog

inductive Aggregate where
  | Count
  | Sum
  | Min
  | Max
  | Avg
  deriving DecidableEq

inductive AggregateResult where
  | Count (n : UInt64)
  | Sum (n : Int64)
  | SumF (x : Float)
  | Min (v : Value)
  | Max (v : Value)
  | Avg (x : Float)
  | AvgF (x : Float)
  | Empty

inductive AggregationError where
  | NonNumericTarget (got : Value)
  | NonHomogeneousNumeric (first_type got : String)
  deriving DecidableEq

/-- `i64::saturating_add`. -/
def saturating_add (a b : Int64) : Int64 :=
  Int64.ofInt (max Int64.minValue.toInt (min (a.toInt + b.toInt) Int64.maxValue.toInt))

/-- `Float < Num < Str < Ident`, and the order of each kind within it. Floats
that do not compare count as equal. -/
def compare_values : Value → Value → Ordering
  | .Float x, .Float y =>
    if Float.ofBits x < Float.ofBits y then .lt
    else if Float.ofBits x > Float.ofBits y then .gt else .eq
  | .Num x, .Num y => compare x.toInt y.toInt
  | .Str x, .Str y => compare x y
  | .Ident x, .Ident y => compare x y
  | .Float _, _ => .lt
  | _, .Float _ => .gt
  | .Num _, _ => .lt
  | _, .Num _ => .gt
  | .Str _, _ => .lt
  | _, .Str _ => .gt

inductive NumericKind where
  | Empty
  | Int
  | Float
  deriving DecidableEq

def numeric_kind_of_first : List Value → NumericKind
  | [] => .Empty
  | .Float _ :: _ => .Float
  | _ :: _ => .Int

/-- The loop over a column that began with an integer. -/
def sum_ints (acc : Int64) : List Value → Except AggregationError Int64
  | [] => .ok acc
  | .Num n :: values => sum_ints (saturating_add acc n) values
  | .Float _ :: _ => .error (.NonHomogeneousNumeric "Num" "Float")
  | other :: _ => .error (.NonNumericTarget other)

/-- The loop over a column that began with a float. -/
def sum_floats (acc : Float) : List Value → Except AggregationError Float
  | [] => .ok acc
  | .Float x :: values => sum_floats (acc + Float.ofBits x) values
  | .Num _ :: _ => .error (.NonHomogeneousNumeric "Float" "Num")
  | other :: _ => .error (.NonNumericTarget other)

def sum_reduce (values : List Value) : Except AggregationError AggregateResult :=
  match numeric_kind_of_first values with
  | .Empty => .ok (.Sum 0)
  | .Int => (sum_ints 0 values).map .Sum
  | .Float => (sum_floats 0 values).map .SumF

def avg_reduce (values : List Value) : Except AggregationError AggregateResult :=
  match numeric_kind_of_first values with
  | .Empty => .ok .Empty
  | .Int => (sum_ints 0 values).map fun sum => .Avg (sum.toFloat / values.length.toFloat)
  | .Float => (sum_floats 0 values).map fun sum => .AvgF (sum / values.length.toFloat)

/-- The loops of `Min` and `Max`. -/
def extreme_reduce (take : Ordering) (row : Value → AggregateResult) (values : List Value) :
    AggregateResult :=
  match Extremes.best (fun v b => compare_values v b = take) values with
  | some v => row v
  | none => .Empty

def reduce_group (agg : Aggregate) (values : List Value) :
    Except AggregationError AggregateResult :=
  match agg with
  | .Count => .ok (.Count (UInt64.ofNat values.length))
  | .Sum => sum_reduce values
  | .Min => .ok (extreme_reduce .lt .Min values)
  | .Max => .ok (extreme_reduce .gt .Max values)
  | .Avg => avg_reduce values

def identity_for : Aggregate → AggregateResult
  | .Count => .Count 0
  | .Sum => .Sum 0
  | .Min | .Max | .Avg => .Empty

/-- The group and the value of a substitution; none where a variable of the
group or the target is not bound. -/
def observe (target : String) (group_by : List String) (sub : Binding) :
    Option (Tuple × Value) := do
  let key ← group_by.mapM sub
  let v ← sub target
  return (key, v)

/-- The entry of a key, with the equality that decides keys. -/
def entry {κ α : Type} [DecidableEq κ] (m : List (κ × α)) (key : κ) : Option α := m.lookup key

abbrev Groups := List (Tuple × List Value)

/-- `groups.entry(key).or_default().push(v)`. -/
def Groups.push (groups : Groups) (key : Tuple) (v : Value) : Groups :=
  Assoc.insert groups key ((entry groups key).getD [] ++ [v])

/-- The values of the target, group by group. -/
def partition (target : String) (group_by : List String) (substitutions : List Binding) : Groups :=
  substitutions.foldl (fun groups sub =>
    match observe target group_by sub with
    | some (key, v) => groups.push key v
    | none => groups) []

/-- The rows of the groups, in the order in which the map is walked. -/
def reduce_groups (agg : Aggregate) (groups : Groups) :
    Except AggregationError (List (Tuple × AggregateResult)) :=
  groups.mapM fun e => do
    let row ← reduce_group agg e.2
    return (e.1, row)

/-- `aggregation::evaluate`. -/
def evaluate (hash : HashOrder (Tuple × List Value)) (agg : Aggregate) (target : String)
    (group_by : List String) (substitutions : List Binding) :
    Except AggregationError (List (Tuple × AggregateResult)) :=
  let groups := partition target group_by substitutions
  if group_by.isEmpty then do
    let values := (entry groups []).getD []
    let row ← if values.isEmpty then .ok (identity_for agg) else reduce_group agg values
    return [([], row)]
  else reduce_groups agg (hash.order groups)

end paideia_as_shell_datalog
