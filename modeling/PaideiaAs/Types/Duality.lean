-- The dual of a session type: taken twice it is the type itself, and neither
-- check can tell a type from its dual.
import PaideiaAs.Types.Session

namespace paideia_as_types.session

/-! ## The dual -/

mutual

def dual : SessionTy → SessionTy
  | .End => .End
  | .Var x => .Var x
  | .Send payload cont => .Recv payload (dual cont)
  | .Recv payload cont => .Send payload (dual cont)
  | .Seq a b => .Seq (dual a) (dual b)
  | .Branch arms => .Choice (dual_arms arms)
  | .Choice arms => .Branch (dual_arms arms)
  | .Rec x body => .Rec x (dual body)

def dual_arms : List (String × SessionTy) → List (String × SessionTy)
  | [] => []
  | (label, arm) :: arms => (label, dual arm) :: dual_arms arms

end

theorem isEmpty_dual_arms (arms : List (String × SessionTy)) :
    (dual_arms arms).isEmpty = arms.isEmpty := by
  cases arms <;> rfl

variable {arms : List (String × SessionTy)} {env : List String}

theorem dual_arms_twice (h : ∀ arm ∈ arms, dual (dual arm.2) = arm.2) :
    dual_arms (dual_arms arms) = arms := by
  induction arms with
  | nil => rfl
  | cons arm arms ih =>
    change (arm.1, dual (dual arm.2)) :: dual_arms (dual_arms arms) = arm :: arms
    rw [h arm List.mem_cons_self, ih fun arm' h' => h arm' (List.mem_cons_of_mem _ h')]

variable (s : SessionTy)

theorem dual_dual : dual (dual s) = s := by
  induction s using SessionTy.branch_induction with
  | End => rfl
  | Var x => rfl
  | Send p c ih => simp only [dual, ih]
  | Recv p c ih => simp only [dual, ih]
  | Seq a b iha ihb => simp only [dual, iha, ihb]
  | Branch arms ih => simp only [dual, dual_arms_twice ih]
  | Choice arms ih => simp only [dual, dual_arms_twice ih]
  | Rec x b ih => simp only [dual, ih]

/-! ## One scope for the whole walk

`wf_rec` of the source has one set of variables that a binder adds its name to
and takes it out of again; `session.wf_rec` gives each call its own list. -/

mutual

def wf_walk : SessionTy → List String → Except SessionWfError Unit × List String
  | .End, env => (.ok (), env)
  | .Var x, env => (if env.contains x then .ok () else .error (.UnboundVar x), env)
  | .Send payload cont, env | .Recv payload cont, env =>
    if payload.isEmpty then (.error .EmptyPayload, env) else wf_walk cont env
  | .Seq a b, env =>
    match wf_walk a env with
    | (.error e, env) => (.error e, env)
    | (.ok (), env) => wf_walk b env
  | .Branch arms, env | .Choice arms, env =>
    if arms.isEmpty then (.error .EmptyChoice, env) else wf_walk_arms [] arms env
  | .Rec x body, env =>
    let fresh := !env.contains x
    let (result, env) := wf_walk body (if fresh then x :: env else env)
    (result, if fresh then env.erase x else env)

def wf_walk_arms (seen : List String) :
    List (String × SessionTy) → List String → Except SessionWfError Unit × List String
  | [], env => (.ok (), env)
  | (label, arm) :: arms, env =>
    if seen.contains label then (.error (.DuplicateLabel label), env)
    else
      match wf_walk arm env with
      | (.error e, env) => (.error e, env)
      | (.ok (), env) => wf_walk_arms (label :: seen) arms env

end

/-- Only which variables are in the scope matters. -/
theorem wf_arms_congr {env' : List String} (h : ∀ arm ∈ arms, wf_rec env arm.2 = wf_rec env' arm.2)
    (seen : List String) :
    wf_arms env seen arms = wf_arms env' seen arms := by
  induction arms generalizing seen with
  | nil => rfl
  | cons arm arms ih =>
    unfold wf_arms
    rw [h arm List.mem_cons_self]
    split
    · rfl
    · rw [ih (fun arm' h' => h arm' (List.mem_cons_of_mem _ h'))]

theorem wf_rec_congr {env' : List String} (h : ∀ y, y ∈ env ↔ y ∈ env') :
    wf_rec env s = wf_rec env' s := by
  induction s using SessionTy.branch_induction generalizing env env' with
  | End => rfl
  | Var x =>
    have hx : env.contains x = env'.contains x := by
      rw [Bool.eq_iff_iff, List.contains_iff_mem, List.contains_iff_mem]
      exact h x
    simp only [wf_rec, hx]
  | Send p c ih => simp only [wf_rec, ih h]
  | Recv p c ih => simp only [wf_rec, ih h]
  | Seq a b iha ihb => simp only [wf_rec, iha h, ihb h]
  | Branch arms ih => simp only [wf_rec, wf_arms_congr (fun arm ha => ih arm ha h) []]
  | Choice arms ih => simp only [wf_rec, wf_arms_congr (fun arm ha => ih arm ha h) []]
  | Rec x b ih =>
    unfold wf_rec
    apply ih
    intro y
    rw [List.mem_cons, List.mem_cons, h y]

theorem wf_walk_arms_eq (h : ∀ arm ∈ arms, wf_walk arm.2 env = (wf_rec env arm.2, env))
    (seen : List String) :
    wf_walk_arms seen arms env = (wf_arms env seen arms, env) := by
  induction arms generalizing seen with
  | nil => rfl
  | cons arm arms ih =>
    unfold wf_walk_arms wf_arms
    rw [h arm List.mem_cons_self]
    split
    · rfl
    · cases wf_rec env arm.2 with
      | error e => rfl
      | ok u => exact ih (fun arm' h' => h arm' (.tail _ h')) _

/-- The walk with one scope finds the same, and leaves the scope as it was. -/
theorem wf_walk_eq (env : List String) : wf_walk s env = (wf_rec env s, env) := by
  induction s using SessionTy.branch_induction generalizing env with
  | End => rfl
  | Var x => rfl
  | Send p c ih =>
    unfold wf_walk wf_rec
    split
    · rfl
    · exact ih env
  | Recv p c ih =>
    unfold wf_walk wf_rec
    split
    · rfl
    · exact ih env
  | Seq a b iha ihb =>
    unfold wf_walk wf_rec
    rw [iha env]
    cases wf_rec env a with
    | error e => rfl
    | ok u => exact ihb env
  | Branch arms ih =>
    unfold wf_walk wf_rec
    split
    · rfl
    · exact wf_walk_arms_eq (fun arm ha => ih arm ha env) []
  | Choice arms ih =>
    unfold wf_walk wf_rec
    split
    · rfl
    · exact wf_walk_arms_eq (fun arm ha => ih arm ha env) []
  | Rec x b ih =>
    unfold wf_walk wf_rec
    cases hx : env.contains x with
    | false =>
      -- the name goes in at the front and comes out again there
      simp only [Bool.not_false, if_true, ih, List.erase_cons_head]
    | true =>
      have hmem := List.contains_iff_mem.mp hx
      simp only [Bool.not_true, Bool.false_eq_true, if_false, ih]
      rw [wf_rec_congr b]
      intro y
      rw [List.mem_cons, or_iff_right_of_imp]
      rintro rfl
      exact hmem

/-! ## What the checks find on the dual -/

theorem wf_arms_dual (h : ∀ arm ∈ arms, wf_rec env (dual arm.2) = wf_rec env arm.2)
    (seen : List String) :
    wf_arms env seen (dual_arms arms) = wf_arms env seen arms := by
  induction arms generalizing seen with
  | nil => rfl
  | cons arm arms ih =>
    unfold dual_arms wf_arms
    rw [h arm List.mem_cons_self]
    split
    · rfl
    · rw [ih (fun arm' h' => h arm' (List.mem_cons_of_mem _ h'))]

theorem wf_rec_dual (env : List String) : wf_rec env (dual s) = wf_rec env s := by
  induction s using SessionTy.branch_induction generalizing env with
  | End => rfl
  | Var x => rfl
  | Send p c ih => simp only [dual, wf_rec, ih]
  | Recv p c ih => simp only [dual, wf_rec, ih]
  | Seq a b iha ihb => simp only [dual, wf_rec, iha, ihb]
  | Branch arms ih =>
    simp only [dual, wf_rec, isEmpty_dual_arms, wf_arms_dual (fun arm ha => ih arm ha env) []]
  | Choice arms ih =>
    simp only [dual, wf_rec, isEmpty_dual_arms, wf_arms_dual (fun arm ha => ih arm ha env) []]
  | Rec x b ih => simp only [dual, wf_rec, ih]

end paideia_as_types.session

namespace paideia_as_types.session_rec

open session

theorem must_traverse_action_dual (s : SessionTy) :
    must_traverse_action (dual s) = must_traverse_action s := by
  induction s using SessionTy.branch_induction with
  | End => rfl
  | Var x => rfl
  | Send p c _ => rfl
  | Recv p c _ => rfl
  | Seq a b iha ihb => simp only [dual, must_traverse_action, iha, ihb]
  | Branch arms _ => simp only [dual, must_traverse_action, isEmpty_dual_arms]
  | Choice arms _ => simp only [dual, must_traverse_action, isEmpty_dual_arms]
  | Rec x b ih => simp only [dual, must_traverse_action, ih]

variable {arms : List (String × SessionTy)}

theorem check_guarded_arms_dual {x : String}
    (h : ∀ arm ∈ arms, check_guarded x (dual arm.2) true = check_guarded x arm.2 true) :
    check_guarded_arms x (dual_arms arms) = check_guarded_arms x arms := by
  induction arms with
  | nil => rfl
  | cons arm arms ih =>
    unfold dual_arms check_guarded_arms
    rw [h arm List.mem_cons_self, ih fun arm' h' => h arm' (List.mem_cons_of_mem _ h')]

theorem check_guarded_dual (x : String) (s : SessionTy) (saw_action : Bool) :
    check_guarded x (dual s) saw_action = check_guarded x s saw_action := by
  induction s using SessionTy.branch_induction generalizing saw_action with
  | End => rfl
  | Var y => rfl
  | Send p c ih => simp only [dual, check_guarded, ih]
  | Recv p c ih => simp only [dual, check_guarded, ih]
  | Seq a b iha ihb => simp only [dual, check_guarded, must_traverse_action_dual, iha, ihb]
  | Branch arms ih =>
    simp only [dual, check_guarded, check_guarded_arms_dual fun arm ha => ih arm ha true]
  | Choice arms ih =>
    simp only [dual, check_guarded, check_guarded_arms_dual fun arm ha => ih arm ha true]
  | Rec y b ih => simp only [dual, check_guarded, ih]

theorem has_free_var_arms_dual {x : String}
    (h : ∀ arm ∈ arms, has_free_var x (dual arm.2) = has_free_var x arm.2) :
    has_free_var_arms x (dual_arms arms) = has_free_var_arms x arms := by
  induction arms with
  | nil => rfl
  | cons arm arms ih =>
    unfold dual_arms has_free_var_arms
    rw [h arm List.mem_cons_self, ih fun arm' h' => h arm' (List.mem_cons_of_mem _ h')]

theorem has_free_var_dual (x : String) (s : SessionTy) :
    has_free_var x (dual s) = has_free_var x s := by
  induction s using SessionTy.branch_induction with
  | End => rfl
  | Var y => rfl
  | Send p c ih => simp only [dual, has_free_var, ih]
  | Recv p c ih => simp only [dual, has_free_var, ih]
  | Seq a b iha ihb => simp only [dual, has_free_var, iha, ihb]
  | Branch arms ih => simp only [dual, has_free_var, has_free_var_arms_dual ih]
  | Choice arms ih => simp only [dual, has_free_var, has_free_var_arms_dual ih]
  | Rec y b ih => simp only [dual, has_free_var, ih]

theorem check_all_arms_dual {outer : List String}
    (h : ∀ arm ∈ arms, check_all_binders outer (dual arm.2) = check_all_binders outer arm.2) :
    check_all_arms outer (dual_arms arms) = check_all_arms outer arms := by
  induction arms with
  | nil => rfl
  | cons arm arms ih =>
    unfold dual_arms check_all_arms
    rw [h arm List.mem_cons_self, ih fun arm' h' => h arm' (List.mem_cons_of_mem _ h')]

theorem check_all_binders_dual (s : SessionTy) (outer : List String) :
    check_all_binders outer (dual s) = check_all_binders outer s := by
  induction s using SessionTy.branch_induction generalizing outer with
  | End => rfl
  | Var x => rfl
  | Send p c ih => simp only [dual, check_all_binders, ih]
  | Recv p c ih => simp only [dual, check_all_binders, ih]
  | Seq a b iha ihb => simp only [dual, check_all_binders, iha, ihb]
  | Branch arms ih =>
    simp only [dual, check_all_binders, check_all_arms_dual fun arm ha => ih arm ha outer]
  | Choice arms ih =>
    simp only [dual, check_all_binders, check_all_arms_dual fun arm ha => ih arm ha outer]
  | Rec x b ih =>
    simp only [dual, check_all_binders, has_free_var_dual, check_guarded_dual, ih]

/-- Duality is an involution, and the two checks give for the dual what they give
for the type: the same `Ok`, the same error, and the scope left as it was. -/
theorem duality (s : SessionTy) (outer : List String) :
    dual (dual s) = s ∧ wf_session_with_env (dual s) outer = wf_session_with_env s outer ∧
      wf_walk (dual s) outer = (wf_session_with_env s outer, outer) ∧
      wf_recursive (dual s) = wf_recursive s := by
  refine ⟨dual_dual s, wf_rec_dual s outer, ?_, check_all_binders_dual s []⟩
  rw [wf_walk_eq, wf_rec_dual]
  rfl

end paideia_as_types.session_rec
