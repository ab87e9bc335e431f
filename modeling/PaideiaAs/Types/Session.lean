-- Session types with their two checks: scoping, labels and payloads
-- (`session.rs`), and guarded recursion (`session_rec.rs`).
import Mathlib.Data.List.Basic

namespace paideia_as_types.session

inductive SessionTy where
  | End
  | Var (x : String)
  | Send (payload : String) (cont : SessionTy)
  | Recv (payload : String) (cont : SessionTy)
  | Seq (a b : SessionTy)
  | Branch (arms : List (String × SessionTy))
  | Choice (arms : List (String × SessionTy))
  | Rec (x : String) (body : SessionTy)

theorem SessionTy.branch_induction {motive : SessionTy → Prop} (End : motive .End)
    (Var : ∀ x, motive (.Var x)) (Send : ∀ p c, motive c → motive (.Send p c))
    (Recv : ∀ p c, motive c → motive (.Recv p c))
    (Seq : ∀ a b, motive a → motive b → motive (.Seq a b))
    (Branch : ∀ arms, (∀ arm ∈ arms, motive arm.2) → motive (.Branch arms))
    (Choice : ∀ arms, (∀ arm ∈ arms, motive arm.2) → motive (.Choice arms))
    (Rec : ∀ x b, motive b → motive (.Rec x b)) : ∀ s, motive s := by
  intro s
  refine SessionTy.rec (motive_1 := motive) (motive_2 := fun arms => ∀ arm ∈ arms, motive arm.2)
    (motive_3 := fun arm => motive arm.2) End Var Send Recv Seq Branch Choice Rec ?_ ?_ ?_ s
  · intro arm h
    cases h
  · intro arm arms harm harms a ha
    rcases List.mem_cons.mp ha with rfl | ha
    · exact harm
    · exact harms a ha
  · intro label arm h
    exact h

/-! ## Well-formedness -/

inductive SessionWfError where
  | EmptyChoice
  | DuplicateLabel (label : String)
  | EmptyPayload
  | UnboundVar (x : String)
  deriving DecidableEq

mutual

def wf_rec (env : List String) : SessionTy → Except SessionWfError Unit
  | .End => .ok ()
  | .Var x => if env.contains x then .ok () else .error (.UnboundVar x)
  | .Send payload cont | .Recv payload cont =>
    if payload.isEmpty then .error .EmptyPayload else wf_rec env cont
  | .Seq a b => do
    wf_rec env a
    wf_rec env b
  | .Branch arms | .Choice arms =>
    if arms.isEmpty then .error .EmptyChoice else wf_arms env [] arms
  | .Rec x body => wf_rec (x :: env) body

def wf_arms (env seen : List String) : List (String × SessionTy) → Except SessionWfError Unit
  | [] => .ok ()
  | (label, arm) :: arms =>
    if seen.contains label then .error (.DuplicateLabel label)
    else do
      wf_rec env arm
      wf_arms env (label :: seen) arms

end

def wf_session_with_env (s : SessionTy) (outer : List String) : Except SessionWfError Unit :=
  wf_rec outer s

def wf_session (s : SessionTy) : Except SessionWfError Unit := wf_session_with_env s []

end paideia_as_types.session

namespace paideia_as_types.session_rec

open session

/-! ## Guarded recursion -/

inductive RecErr where
  | UnguardedRecursion (var : String)
  | ShadowedByOuterBinder (var : String)
  deriving DecidableEq

/-- Whether each path to a leaf takes an action. -/
def must_traverse_action : SessionTy → Bool
  | .End | .Var _ => false
  | .Send _ _ | .Recv _ _ => true
  | .Seq a b => must_traverse_action a || must_traverse_action b
  | .Branch arms | .Choice arms => !arms.isEmpty
  | .Rec _ body => must_traverse_action body

mutual

/-- Whether each occurrence of `x` is below an action. -/
def check_guarded (x : String) : SessionTy → Bool → Bool
  | .End, _ => true
  | .Var y, saw_action => y != x || saw_action
  | .Send _ cont, _ | .Recv _ cont, _ => check_guarded x cont true
  | .Seq a b, saw_action =>
    let after_a := saw_action || must_traverse_action a
    check_guarded x a saw_action && check_guarded x b after_a
  | .Branch arms, _ | .Choice arms, _ => check_guarded_arms x arms
  | .Rec y body, saw_action => if y == x then true else check_guarded x body saw_action

def check_guarded_arms (x : String) : List (String × SessionTy) → Bool
  | [] => true
  | (_, arm) :: arms => check_guarded x arm true && check_guarded_arms x arms

end

mutual

def has_free_var (x : String) : SessionTy → Bool
  | .End => false
  | .Var y => y == x
  | .Send _ cont | .Recv _ cont => has_free_var x cont
  | .Seq a b => has_free_var x a || has_free_var x b
  | .Branch arms | .Choice arms => has_free_var_arms x arms
  | .Rec y body => if y == x then false else has_free_var x body

def has_free_var_arms (x : String) : List (String × SessionTy) → Bool
  | [] => false
  | (_, arm) :: arms => has_free_var x arm || has_free_var_arms x arms

end

mutual

/-- The innermost of the outer binders comes last. -/
def check_all_binders (outer_binders : List String) : SessionTy → Except RecErr Unit
  | .End | .Var _ => .ok ()
  | .Send _ cont | .Recv _ cont => check_all_binders outer_binders cont
  | .Seq a b => do
    check_all_binders outer_binders a
    check_all_binders outer_binders b
  | .Branch arms | .Choice arms => check_all_arms outer_binders arms
  | .Rec x body =>
    if outer_binders.contains x && has_free_var x body then .error (.ShadowedByOuterBinder x)
    else if !check_guarded x body false then .error (.UnguardedRecursion x)
    else check_all_binders (outer_binders ++ [x]) body

def check_all_arms (outer_binders : List String) : List (String × SessionTy) → Except RecErr Unit
  | [] => .ok ()
  | (_, arm) :: arms => do
    check_all_binders outer_binders arm
    check_all_arms outer_binders arms

end

def wf_recursive (sess : SessionTy) : Except RecErr Unit := check_all_binders [] sess

end paideia_as_types.session_rec
