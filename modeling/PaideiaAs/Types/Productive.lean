-- Unfolding a session type that passed both checks: the head comes to `End` or to
-- an action after finitely many steps, now and after every action. Two parties whose
-- types are dual never wait for different actions.
import PaideiaAs.Types.Duality
import PaideiaAs.Lib.Assoc

namespace paideia_as_types.session_rec

open session
open Relation (ReflTransGen)
open Bool (and_eq_true false_eq_true or_eq_false_iff or_eq_true)
open SessionTy (branch_induction)
open Option (map_eq_some_iff map_map)

/-! ## Unfolding -/

mutual

/-- The variable replaced by a type without free variables. -/
def subst (x : String) (u : SessionTy) : SessionTy → SessionTy
  | .End => .End
  | .Var y => if y = x then u else .Var y
  | .Send payload cont => .Send payload (subst x u cont)
  | .Recv payload cont => .Recv payload (subst x u cont)
  | .Seq a b => .Seq (subst x u a) (subst x u b)
  | .Branch arms => .Branch (subst_arms x u arms)
  | .Choice arms => .Choice (subst_arms x u arms)
  | .Rec y body => if y = x then .Rec y body else .Rec y (subst x u body)

def subst_arms (x : String) (u : SessionTy) : List (String × SessionTy) → List (String × SessionTy)
  | [] => []
  | (label, arm) :: arms => (label, subst x u arm) :: subst_arms x u arms

end

/-- One step at the head: unfold a `Rec`, go into the left of a `Seq`, or on to
its right when the left has ended. -/
def unfold_head : SessionTy → Option SessionTy
  | .Rec x body => some (subst x (.Rec x body) body)
  | .Seq .End b => some b
  | .Seq a b => (unfold_head a).map fun a' => .Seq a' b
  | _ => none

/-- The head is an action. -/
inductive Acts : SessionTy → Prop where
  | send {p : String} {c : SessionTy} : Acts (.Send p c)
  | recv {p : String} {c : SessionTy} : Acts (.Recv p c)
  | branch {arms : List (String × SessionTy)} : Acts (.Branch arms)
  | choice {arms : List (String × SessionTy)} : Acts (.Choice arms)
  | seq {a b : SessionTy} : Acts a → Acts (.Seq a b)

/-- What is left after the action at the head. -/
inductive Continues : SessionTy → SessionTy → Prop where
  | send {p : String} {c : SessionTy} : Continues (.Send p c) c
  | recv {p : String} {c : SessionTy} : Continues (.Recv p c) c
  | branch {arms : List (String × SessionTy)} {arm : String × SessionTy} :
      arm ∈ arms → Continues (.Branch arms) arm.2
  | choice {arms : List (String × SessionTy)} {arm : String × SessionTy} :
      arm ∈ arms → Continues (.Choice arms) arm.2
  | seq {a a' b : SessionTy} : Continues a a' → Continues (.Seq a b) (.Seq a' b)

/-- Reached by steps at the head and any number of actions. -/
inductive Reached (s : SessionTy) : SessionTy → Prop where
  | start : Reached s s
  | head {t t' : SessionTy} : Reached s t → unfold_head t = some t' → Reached s t'
  | action {t t' : SessionTy} : Reached s t → Continues t t' → Reached s t'

/-- Steps at the head lead to `End` or to an action. -/
inductive Productive : SessionTy → Prop where
  | ended : Productive .End
  | acts {s : SessionTy} : Acts s → Productive s
  | step {s s' : SessionTy} : unfold_head s = some s' → Productive s' → Productive s

/-! ## Arms -/

variable {x : String} {arms : List (String × SessionTy)} {u s a b : SessionTy}

theorem check_guarded_arms_iff :
    check_guarded_arms x arms = true ↔ ∀ arm ∈ arms, check_guarded x arm.2 true = true := by
  induction arms with
  | nil => simp [check_guarded_arms]
  | cons arm arms ih =>
    unfold check_guarded_arms
    rw [and_eq_true, ih, List.forall_mem_cons]

theorem has_free_var_arms_iff :
    has_free_var_arms x arms = false ↔ ∀ arm ∈ arms, has_free_var x arm.2 = false := by
  induction arms with
  | nil => simp [has_free_var_arms]
  | cons arm arms ih =>
    unfold has_free_var_arms
    rw [or_eq_false_iff, ih, List.forall_mem_cons]

theorem mem_subst_arms {arm : String × SessionTy} (h : arm ∈ subst_arms x u arms) :
    ∃ old ∈ arms, arm.2 = subst x u old.2 := by
  induction arms with
  | nil => cases h
  | cons old arms ih =>
    unfold subst_arms at h
    rcases List.mem_cons.mp h with rfl | h
    · exact ⟨old, List.mem_cons_self .., rfl⟩
    · obtain ⟨old', hmem, heq⟩ := ih h
      exact ⟨old', .tail _ hmem, heq⟩

theorem subst_arms_isEmpty (arms : List (String × SessionTy)) :
    (subst_arms x u arms).isEmpty = arms.isEmpty := by
  cases arms with
  | nil => rfl
  | cons arm arms => rfl

/-! ## Closed types -/

/-- No variable is free. -/
def Closed (s : SessionTy) : Prop := ∀ x, has_free_var x s = false

/-- The free variables are among the names. -/
def FreeIn (env : List String) (s : SessionTy) : Prop := ∀ x, x ∉ env → has_free_var x s = false

theorem wf_arms_each {env : List String} :
    ∀ {seen : List String}, wf_arms env seen arms = .ok () → ∀ arm ∈ arms, wf_rec env arm.2 = .ok () := by
  induction arms with
  | nil =>
    intro seen _ arm h
    cases h
  | cons arm arms ih =>
    intro seen h
    unfold wf_arms at h
    split at h
    · cases h
    · cases harm : wf_rec env arm.2 with
      | error e =>
        rw [harm] at h
        cases h
      | ok u =>
        rw [harm] at h
        rw [List.forall_mem_cons]
        exact ⟨harm, ih h⟩

/-- A type that passes the check of scoping has no variables but those bound
outside. -/
theorem freeIn_of_wf (s : SessionTy) : ∀ {env : List String}, wf_rec env s = .ok () → FreeIn env s := by
  induction s using branch_induction with
  | End =>
    intro env _ x _
    rfl
  | Var y =>
    intro env h x hx
    unfold wf_rec at h
    split at h
    · rename_i hy
      unfold has_free_var
      rw [beq_eq_false_iff_ne]
      rintro rfl
      exact hx (by simpa using hy)
    · cases h
  | Send p c ih =>
    intro env h x hx
    unfold wf_rec at h
    split at h
    · cases h
    · exact ih h x hx
  | Recv p c ih =>
    intro env h x hx
    unfold wf_rec at h
    split at h
    · cases h
    · exact ih h x hx
  | Seq a b iha ihb =>
    intro env h x hx
    unfold wf_rec at h
    cases ha : wf_rec env a with
    | error e =>
      rw [ha] at h
      cases h
    | ok u =>
      rw [ha] at h
      unfold has_free_var
      rw [iha ha x hx, ihb h x hx]
      rfl
  | Branch arms ih =>
    intro env h x hx
    unfold wf_rec at h
    split at h
    · cases h
    · exact has_free_var_arms_iff.mpr fun arm harm => ih arm harm (wf_arms_each h arm harm) x hx
  | Choice arms ih =>
    intro env h x hx
    unfold wf_rec at h
    split at h
    · cases h
    · exact has_free_var_arms_iff.mpr fun arm harm => ih arm harm (wf_arms_each h arm harm) x hx
  | Rec y body ih =>
    intro env h x hx
    unfold wf_rec at h
    unfold has_free_var
    split
    · rfl
    · rename_i hne
      refine ih h x ?_
      rw [List.mem_cons, not_or]
      exact ⟨fun heq => hne (by simp [heq]), hx⟩

theorem closed_of_wf (h : wf_session s = .ok ()) : Closed s :=
  fun x => freeIn_of_wf s h x (List.not_mem_nil)

/-- After the substitution of a closed type the variable is gone, and no other
comes in. -/
theorem has_free_var_subst (hu : Closed u) (z : String) (s : SessionTy)
    (h : z = x ∨ has_free_var z s = false) : has_free_var z (subst x u s) = false := by
  induction s using branch_induction with
  | End => rfl
  | Var y =>
    unfold subst
    split
    · exact hu z
    · rename_i hy
      rcases h with rfl | h
      · unfold has_free_var
        simpa using hy
      · exact h
  | Send p c ih => exact ih h
  | Recv p c ih => exact ih h
  | Seq a b iha ihb =>
    unfold subst has_free_var
    unfold has_free_var at h
    rw [or_eq_false_iff] at h ⊢
    exact ⟨iha (h.imp_right And.left), ihb (h.imp_right And.right)⟩
  | Branch arms ih =>
    unfold subst has_free_var
    unfold has_free_var at h
    rw [has_free_var_arms_iff] at h ⊢
    intro arm harm
    obtain ⟨old, hold, heq⟩ := mem_subst_arms harm
    rw [heq]
    exact ih old hold (h.imp_right fun h => h old hold)
  | Choice arms ih =>
    unfold subst has_free_var
    unfold has_free_var at h
    rw [has_free_var_arms_iff] at h ⊢
    intro arm harm
    obtain ⟨old, hold, heq⟩ := mem_subst_arms harm
    rw [heq]
    exact ih old hold (h.imp_right fun h => h old hold)
  | Rec y body ih =>
    unfold subst
    unfold has_free_var at h
    split
    · rename_i hy
      unfold has_free_var
      split
      · rfl
      · rename_i hz
        rcases h with rfl | h
        · exact absurd hy (by simpa using hz)
        · rw [if_neg hz] at h
          exact h
    · unfold has_free_var
      split
      · rfl
      · rename_i hz
        rw [if_neg hz] at h
        exact ih h

/-! ## Guarded types -/

/-- Every binder of the type is guarded. -/
inductive AllGuarded : SessionTy → Prop where
  | End : AllGuarded .End
  | Var {x : String} : AllGuarded (.Var x)
  | Send {p : String} {c : SessionTy} : AllGuarded c → AllGuarded (.Send p c)
  | Recv {p : String} {c : SessionTy} : AllGuarded c → AllGuarded (.Recv p c)
  | Seq {a b : SessionTy} : AllGuarded a → AllGuarded b → AllGuarded (.Seq a b)
  | Branch {arms : List (String × SessionTy)} :
      (∀ arm ∈ arms, AllGuarded arm.2) → AllGuarded (.Branch arms)
  | Choice {arms : List (String × SessionTy)} :
      (∀ arm ∈ arms, AllGuarded arm.2) → AllGuarded (.Choice arms)
  | Rec {x : String} {body : SessionTy} :
      check_guarded x body false = true → AllGuarded body → AllGuarded (.Rec x body)

theorem check_all_arms_each {outer : List String} (h : check_all_arms outer arms = .ok ()) :
    ∀ arm ∈ arms, check_all_binders outer arm.2 = .ok () := by
  induction arms with
  | nil =>
    intro arm harm
    cases harm
  | cons arm arms ih =>
    unfold check_all_arms at h
    cases harm : check_all_binders outer arm.2 with
    | error e =>
      rw [harm] at h
      cases h
    | ok u =>
      rw [harm] at h
      rw [List.forall_mem_cons]
      exact ⟨harm, ih h⟩

theorem allGuarded_of_check (s : SessionTy) :
    ∀ {outer : List String}, check_all_binders outer s = .ok () → AllGuarded s := by
  induction s using branch_induction with
  | End =>
    intro outer _
    exact .End
  | Var x =>
    intro outer _
    exact .Var
  | Send p c ih =>
    intro outer h
    exact .Send (ih h)
  | Recv p c ih =>
    intro outer h
    exact .Recv (ih h)
  | Seq a b iha ihb =>
    intro outer h
    unfold check_all_binders at h
    cases ha : check_all_binders outer a with
    | error e =>
      rw [ha] at h
      cases h
    | ok u =>
      rw [ha] at h
      exact .Seq (iha ha) (ihb h)
  | Branch arms ih =>
    intro outer h
    exact .Branch fun arm harm => ih arm harm (check_all_arms_each h arm harm)
  | Choice arms ih =>
    intro outer h
    exact .Choice fun arm harm => ih arm harm (check_all_arms_each h arm harm)
  | Rec x body ih =>
    intro outer h
    unfold check_all_binders at h
    split at h
    · cases h
    · split at h
      · cases h
      · rename_i hguarded
        exact .Rec (by simpa using hguarded) (ih h)

/-- Behind more actions a variable is guarded all the more. -/
theorem check_guarded_after (s : SessionTy) :
    ∀ {saw saw' : Bool}, (saw = true → saw' = true) → check_guarded x s saw = true →
      check_guarded x s saw' = true := by
  induction s using branch_induction with
  | End =>
    intro saw saw' _ _
    rfl
  | Var y =>
    intro saw saw' hsaw h
    unfold check_guarded at h ⊢
    rw [or_eq_true] at h ⊢
    exact h.imp_right hsaw
  | Send p c ih =>
    intro saw saw' _ h
    exact h
  | Recv p c ih =>
    intro saw saw' _ h
    exact h
  | Seq a b iha ihb =>
    intro saw saw' hsaw h
    unfold check_guarded at h ⊢
    rw [and_eq_true] at h ⊢
    refine ⟨iha hsaw h.1, ihb ?_ h.2⟩
    rw [or_eq_true, or_eq_true]
    exact Or.imp_left hsaw
  | Branch arms ih =>
    intro saw saw' _ h
    exact h
  | Choice arms ih =>
    intro saw saw' _ h
    exact h
  | Rec y body ih =>
    intro saw saw' hsaw h
    unfold check_guarded at h ⊢
    split
    · rfl
    · rename_i hy
      rw [if_neg hy] at h
      exact ih hsaw h

theorem check_guarded_of_absent (s : SessionTy) :
    ∀ {saw : Bool}, has_free_var x s = false → check_guarded x s saw = true := by
  induction s using branch_induction with
  | End =>
    intro saw _
    rfl
  | Var y =>
    intro saw h
    unfold check_guarded
    unfold has_free_var at h
    rw [bne, h]
    rfl
  | Send p c ih =>
    intro saw h
    exact ih h
  | Recv p c ih =>
    intro saw h
    exact ih h
  | Seq a b iha ihb =>
    intro saw h
    unfold has_free_var at h
    rw [or_eq_false_iff] at h
    unfold check_guarded
    rw [and_eq_true]
    exact ⟨iha h.1, ihb h.2⟩
  | Branch arms ih =>
    intro saw h
    unfold has_free_var at h
    rw [has_free_var_arms_iff] at h
    exact check_guarded_arms_iff.mpr fun arm harm => ih arm harm (h arm harm)
  | Choice arms ih =>
    intro saw h
    unfold has_free_var at h
    rw [has_free_var_arms_iff] at h
    exact check_guarded_arms_iff.mpr fun arm harm => ih arm harm (h arm harm)
  | Rec y body ih =>
    intro saw h
    unfold check_guarded
    unfold has_free_var at h
    split
    · rfl
    · rename_i hy
      rw [if_neg hy] at h
      exact ih h

section

variable {x : String} {u : SessionTy}

theorem must_subst (s : SessionTy) (h : must_traverse_action s = true) :
    must_traverse_action (subst x u s) = true := by
  induction s using branch_induction with
  | End => cases h
  | Var y => cases h
  | Send p c _ => rfl
  | Recv p c _ => rfl
  | Seq a b iha ihb =>
    unfold subst must_traverse_action
    unfold must_traverse_action at h
    rw [or_eq_true] at h ⊢
    exact h.imp iha ihb
  | Branch arms _ =>
    unfold subst must_traverse_action
    rw [subst_arms_isEmpty]
    exact h
  | Choice arms _ =>
    unfold subst must_traverse_action
    rw [subst_arms_isEmpty]
    exact h
  | Rec y body ih =>
    unfold subst
    split
    · exact h
    · exact ih h

theorem check_guarded_subst (hu : Closed u) (y : String) (s : SessionTy) :
    ∀ {saw : Bool}, check_guarded y s saw = true → check_guarded y (subst x u s) saw = true := by
  induction s using branch_induction with
  | End =>
    intro saw _
    rfl
  | Var z =>
    intro saw h
    unfold subst
    split
    · exact check_guarded_of_absent u (hu y)
    · exact h
  | Send p c ih =>
    intro saw h
    exact ih h
  | Recv p c ih =>
    intro saw h
    exact ih h
  | Seq a b iha ihb =>
    intro saw h
    unfold subst check_guarded
    unfold check_guarded at h
    rw [and_eq_true] at h ⊢
    refine ⟨iha h.1, check_guarded_after _ ?_ (ihb h.2)⟩
    rw [or_eq_true, or_eq_true]
    exact Or.imp_right (must_subst a)
  | Branch arms ih =>
    intro saw h
    unfold subst check_guarded
    unfold check_guarded at h
    rw [check_guarded_arms_iff] at h ⊢
    intro arm harm
    obtain ⟨old, hold, heq⟩ := mem_subst_arms harm
    rw [heq]
    exact ih old hold (h old hold)
  | Choice arms ih =>
    intro saw h
    unfold subst check_guarded
    unfold check_guarded at h
    rw [check_guarded_arms_iff] at h ⊢
    intro arm harm
    obtain ⟨old, hold, heq⟩ := mem_subst_arms harm
    rw [heq]
    exact ih old hold (h old hold)
  | Rec z body ih =>
    intro saw h
    unfold subst
    split
    · exact h
    · unfold check_guarded at h ⊢
      split
      · rfl
      · rename_i hz
        rw [if_neg hz] at h
        exact ih h

theorem AllGuarded.subst (hu : Closed u) (hg : AllGuarded u) (h : AllGuarded s) :
    AllGuarded (session_rec.subst x u s) := by
  induction s using branch_induction with
  | End => exact .End
  | Var y =>
    unfold session_rec.subst
    split
    · exact hg
    · exact .Var
  | Send p c ih =>
    cases h with
    | Send h => exact .Send (ih h)
  | Recv p c ih =>
    cases h with
    | Recv h => exact .Recv (ih h)
  | Seq a b iha ihb =>
    cases h with
    | Seq ha hb => exact .Seq (iha ha) (ihb hb)
  | Branch arms ih =>
    cases h with
    | Branch h =>
      refine .Branch fun arm harm => ?_
      obtain ⟨old, hold, heq⟩ := mem_subst_arms harm
      rw [heq]
      exact ih old hold (h old hold)
  | Choice arms ih =>
    cases h with
    | Choice h =>
      refine .Choice fun arm harm => ?_
      obtain ⟨old, hold, heq⟩ := mem_subst_arms harm
      rw [heq]
      exact ih old hold (h old hold)
  | Rec y body ih =>
    unfold session_rec.subst
    split
    · exact h
    · cases h with
      | Rec hguard h => exact .Rec (check_guarded_subst hu y body hguard) (ih h)

end

/-! ## The head -/

/-- What unfolding relies on. -/
structure Sound (s : SessionTy) : Prop where
  closed : Closed s
  guarded : AllGuarded s

theorem unfold_head_seq (ha : a ≠ .End) :
    unfold_head (.Seq a b) = (unfold_head a).map fun a' => .Seq a' b := by
  cases a with
  | End => exact absurd rfl ha
  | _ => rfl

theorem Closed.seq (h : Closed (.Seq a b)) : Closed a ∧ Closed b := by
  have hboth : ∀ x, has_free_var x a = false ∧ has_free_var x b = false := by
    intro x
    have := h x
    unfold has_free_var at this
    rwa [or_eq_false_iff] at this
  exact ⟨fun x => (hboth x).1, fun x => (hboth x).2⟩

theorem Closed.mk_seq (ha : Closed a) (hb : Closed b) : Closed (.Seq a b) := by
  intro x
  unfold has_free_var
  rw [ha x, hb x]
  rfl

theorem Closed.body {x z : String} {body : SessionTy} (h : Closed (.Rec x body)) :
    z = x ∨ has_free_var z body = false := by
  have := h z
  unfold has_free_var at this
  split at this
  · rename_i hx
    exact .inl (by simpa using Eq.symm (eq_of_beq hx))
  · exact .inr this

theorem Sound.seq (h : Sound (.Seq a b)) : Sound a ∧ Sound b := by
  obtain ⟨ha, hb⟩ := h.closed.seq
  cases h.guarded with
  | Seq hga hgb => exact ⟨⟨ha, hga⟩, ⟨hb, hgb⟩⟩

theorem Sound.mk_seq (ha : Sound a) (hb : Sound b) : Sound (.Seq a b) :=
  ⟨ha.closed.mk_seq hb.closed, .Seq ha.guarded hb.guarded⟩

theorem Sound.unfold_head : ∀ {s' : SessionTy}, Sound s →
    session_rec.unfold_head s = some s' → Sound s' := by
  induction s using branch_induction with
  | Rec x body _ =>
    intro s' hs h
    cases h
    refine ⟨fun z => has_free_var_subst hs.closed z body hs.closed.body, ?_⟩
    cases hs.guarded with
    | Rec _ hbody => exact .subst hs.closed hs.guarded hbody
  | Seq a b iha _ =>
    intro s' hs h
    obtain ⟨ha, hb⟩ := hs.seq
    by_cases hend : a = .End
    · subst hend
      cases h
      exact hb
    · rw [unfold_head_seq hend] at h
      obtain ⟨a', ha', rfl⟩ := map_eq_some_iff.mp h
      exact (iha ha ha').mk_seq hb
  | End | Var _ | Send _ _ _ | Recv _ _ _ | Branch _ _ | Choice _ _ =>
    intro s' _ h
    cases h

/-- So does an action. -/
theorem Sound.continues {s' : SessionTy} (h : Continues s s') (hs : Sound s) : Sound s' := by
  induction h with
  | send =>
    cases hs.guarded with
    | Send hc => exact ⟨hs.closed, hc⟩
  | recv =>
    cases hs.guarded with
    | Recv hc => exact ⟨hs.closed, hc⟩
  | branch harm =>
    refine ⟨fun x => has_free_var_arms_iff.mp (hs.closed x) _ harm, ?_⟩
    cases hs.guarded with
    | Branch hc => exact hc _ harm
  | choice harm =>
    refine ⟨fun x => has_free_var_arms_iff.mp (hs.closed x) _ harm, ?_⟩
    cases hs.guarded with
    | Choice hc => exact hc _ harm
  | seq _ ih =>
    obtain ⟨ha, hb⟩ := hs.seq
    exact (ih ha).mk_seq hb

/-! ## A measure of the head -/

/-- How far the head is from `End` or an action. The right of a `Seq` counts only
where the left may end without an action. -/
def head_size : SessionTy → Nat
  | .Seq a b => 1 + head_size a + if must_traverse_action a then 0 else head_size b
  | .Rec _ body => 1 + head_size body
  | _ => 0

theorem head_size_rec (x : String) (body : SessionTy) :
    head_size (.Rec x body) = 1 + head_size body := rfl

theorem head_size_seq (a b : SessionTy) : head_size (.Seq a b)
    = 1 + head_size a + if must_traverse_action a then 0 else head_size b := rfl

/-- A guarded variable is not reached by the measure. -/
theorem head_size_subst (s : SessionTy)
    (h : check_guarded x s false = true) : head_size (subst x u s) ≤ head_size s := by
  induction s using branch_induction with
  | Var y =>
    unfold check_guarded at h
    unfold subst
    exact Nat.le_of_eq (congrArg head_size (if_neg (by simpa using h)))
  | Seq a b iha ihb =>
    unfold check_guarded at h
    rw [and_eq_true, Bool.false_or] at h
    have ha := iha h.1
    unfold subst
    rw [head_size_seq, head_size_seq]
    cases hmust : must_traverse_action a with
    | true =>
      rw [must_subst a hmust]
      simpa using ha
    | false =>
      have hb := ihb (hmust ▸ h.2)
      split
      all_goals
        simp only [false_eq_true, if_false]
        omega
  | Rec y body ih =>
    unfold check_guarded at h
    unfold subst
    split
    · exact Nat.le_refl _
    · rename_i hy
      rw [if_neg (by simpa using hy)] at h
      rw [head_size_rec, head_size_rec]
      have := ih h
      omega
  | _ => exact Nat.le_refl _

theorem must_unfold_head : ∀ {s' : SessionTy}, must_traverse_action s = true →
    unfold_head s = some s' → must_traverse_action s' = true := by
  induction s using branch_induction with
  | Rec x body _ =>
    intro s' hmust h
    cases h
    exact must_subst body hmust
  | Seq a b iha _ =>
    intro s' hmust h
    by_cases hend : a = .End
    · subst hend
      cases h
      exact hmust
    · rw [unfold_head_seq hend] at h
      obtain ⟨a', ha', rfl⟩ := map_eq_some_iff.mp h
      unfold must_traverse_action at hmust ⊢
      rw [or_eq_true] at hmust ⊢
      exact hmust.imp_left fun ha => iha ha ha'
  | _ =>
    intro s' _ h
    cases h

/-- Each step at the head of a sound type brings it nearer. -/
theorem head_size_unfold_head : ∀ {s' : SessionTy}, Sound s →
    unfold_head s = some s' → head_size s' < head_size s := by
  induction s using branch_induction with
  | Rec x body _ =>
    intro s' hs h
    cases h
    cases hs.guarded with
    | Rec hx _ =>
      rw [head_size_rec]
      exact Nat.lt_of_le_of_lt (head_size_subst body hx) (by omega)
  | Seq a b iha _ =>
    intro s' hs h
    by_cases hend : a = .End
    · subst hend
      cases h
      rw [head_size_seq]
      simp only [must_traverse_action, false_eq_true, if_false]
      omega
    · rw [unfold_head_seq hend] at h
      obtain ⟨a', ha', rfl⟩ := map_eq_some_iff.mp h
      have hlt := iha hs.seq.1 ha'
      rw [head_size_seq, head_size_seq]
      cases hmust : must_traverse_action a with
      | true =>
        rw [must_unfold_head hmust ha']
        simpa using hlt
      | false =>
        split
        all_goals
          simp only [false_eq_true, if_false]
          omega
  | _ =>
    intro s' _ h
    cases h

theorem ended_or_acts (hs : Sound s) (h : unfold_head s = none) : s = .End ∨ Acts s := by
  induction s using branch_induction with
  | End => exact .inl rfl
  | Var x =>
    have := hs.closed x
    unfold has_free_var at this
    simp at this
  | Send p c _ => exact .inr .send
  | Recv p c _ => exact .inr .recv
  | Branch arms _ => exact .inr .branch
  | Choice arms _ => exact .inr .choice
  | Rec x body _ => cases h
  | Seq a b iha _ =>
    by_cases hend : a = .End
    · subst hend
      cases h
    · rw [unfold_head_seq hend, Option.map_eq_none_iff] at h
      rcases iha hs.seq.1 h with rfl | ha
      · exact absurd rfl hend
      · exact .inr (.seq ha)

theorem Sound.productive (hs : Sound s) : Productive s := by
  induction hm : head_size s using Nat.strongRecOn generalizing s with
  | ind m ih =>
  cases hstep : session_rec.unfold_head s with
  | none =>
    rcases ended_or_acts hs hstep with rfl | h
    · exact .ended
    · exact .acts h
  | some s' =>
    have hlt := head_size_unfold_head hs hstep
    exact .step hstep (ih _ (hm ▸ hlt) (hs.unfold_head hstep) rfl)

theorem Sound.reached {t : SessionTy} (hs : Sound s) (h : Reached s t) : Sound t := by
  induction h with
  | start => exact hs
  | head _ hstep ih => exact ih.unfold_head hstep
  | action _ hcont ih => exact ih.continues hcont

/-- A session type that both checks accept unfolds to `End` or an action, and so
does everything that it comes to. -/
theorem unfolding_productive (s : SessionTy) (hwf : session.wf_session s = .ok ())
    (hrec : wf_recursive s = .ok ()) (t : SessionTy) (ht : Reached s t) : Productive t := by
  have hs : Sound s := ⟨closed_of_wf hwf, allGuarded_of_check s hrec⟩
  exact (hs.reached ht).productive

/-- `rec X. !T. rec Y. ?U. Choice { a: X, b: Y }`. -/
def twoBinders : SessionTy :=
  .Rec "X" (.Send "T" (.Rec "Y" (.Recv "U" (.Choice [("a", .Var "X"), ("b", .Var "Y")]))))

/-- After the first message the inner binder is at the head, with the outer type
put in for `X`. -/
theorem two_binders_productive :
    Productive (.Rec "Y" (.Recv "U" (.Choice [("a", twoBinders), ("b", .Var "Y")]))) := by
  refine unfolding_productive twoBinders (by decide) (by decide) _ ?_
  have hhead : Reached twoBinders
      (.Send "T" (.Rec "Y" (.Recv "U" (.Choice [("a", twoBinders), ("b", .Var "Y")])))) :=
    .head .start rfl
  exact .action hhead .send

/-! ## The two parties of a protocol -/

/-- What a party does, as the other one sees it. -/
inductive Action where
  | send (payload : String)
  | recv (payload : String)
  | select (label : String)
  | offer (label : String)
  deriving DecidableEq

def Action.co : Action → Action
  | .send p => .recv p
  | .recv p => .send p
  | .select l => .offer l
  | .offer l => .select l

/-- What is left after the action, where the head is ready for it. -/
def after (e : Action) : SessionTy → Option SessionTy
  | .Send p c => if e = .send p then some c else none
  | .Recv p c => if e = .recv p then some c else none
  | .Branch arms => if let .offer l := e then arms.lookup l else none
  | .Choice arms => if let .select l := e then arms.lookup l else none
  | .Seq a b => (after e a).map fun a' => .Seq a' b
  | _ => none

/-- A party goes on at its head, or the two do what belongs together. -/
inductive Exchange : SessionTy × SessionTy → SessionTy × SessionTy → Prop where
  | left {s s' t : SessionTy} : unfold_head s = some s' → Exchange (s, t) (s', t)
  | right {s t t' : SessionTy} : unfold_head t = some t' → Exchange (s, t) (s, t')
  | message {s s' t t' : SessionTy} {e : Action} :
      after e s = some s' → after e.co t = some t' → Exchange (s, t) (s', t')

theorem dual_subst (x : String) (u s : SessionTy) :
    dual (subst x u s) = subst x (dual u) (dual s) := by
  have harms : ∀ arms : List (String × SessionTy),
      (∀ arm ∈ arms, dual (subst x u arm.2) = subst x (dual u) (dual arm.2)) →
        dual_arms (subst_arms x u arms) = subst_arms x (dual u) (dual_arms arms) := by
    intro arms h
    induction arms with
    | nil => rfl
    | cons arm arms ih =>
      simp only [subst_arms, dual_arms, h arm (.head _), ih fun arm' h' => h arm' (.tail _ h')]
  induction s using branch_induction with
  | End => rfl
  | Var y =>
    simp only [dual, subst]
    split <;> rfl
  | Send p c ih | Recv p c ih => simp only [dual, subst, ih]
  | Seq a b iha ihb => simp only [dual, subst, iha, ihb]
  | Branch arms ih | Choice arms ih => simp only [dual, subst, harms arms ih]
  | Rec y body ih =>
    simp only [dual, subst]
    split
    · rfl
    · simp only [dual, ih]

theorem unfold_head_dual (s : SessionTy) : unfold_head (dual s) = (unfold_head s).map dual := by
  induction s using branch_induction with
  | Rec x body _ => simp only [dual, unfold_head, Option.map_some, dual_subst]
  | Seq a b iha _ =>
    by_cases hend : a = .End
    · subst hend
      rfl
    · have hend' : dual a ≠ .End := fun h => hend (by rw [← dual_dual a, h]; rfl)
      unfold dual
      rw [unfold_head_seq hend, unfold_head_seq hend', iha, map_map, map_map]
      rfl
  | _ => rfl

theorem after_dual (e : Action) (s : SessionTy) : after e.co (dual s) = (after e s).map dual := by
  have harms : ∀ (l : String) (arms : List (String × SessionTy)),
      (dual_arms arms).lookup l = (arms.lookup l).map dual := by
    intro l arms
    induction arms with
    | nil => rfl
    | cons arm arms ih =>
      unfold dual_arms
      rw [List.lookup_cons, List.lookup_cons, ih]
      split <;> rfl
  induction s using branch_induction with
  | Send p c _ | Recv p c _ =>
    cases e <;> simp only [dual, after, Action.co] <;> split <;> simp_all
  | Branch arms _ | Choice arms _ => cases e <;> first | exact harms _ arms | rfl
  | Seq a b ih _ =>
    unfold dual after
    rw [ih, map_map, map_map]
    rfl
  | _ => rfl

variable {s t r : SessionTy} {e : Action}

/-- An action is at a head that has stopped. -/
theorem after_spec (h : after e s = some t) : Continues s t ∧ unfold_head s = none := by
  induction s using branch_induction generalizing t with
  | Send p c _ | Recv p c _ =>
    unfold after at h
    split at h <;> cases h
    exact ⟨by constructor, rfl⟩
  | Branch arms _ =>
    unfold after at h
    split at h
    · exact ⟨.branch (Assoc.mem_of_lookup h), rfl⟩
    · cases h
  | Choice arms _ =>
    unfold after at h
    split at h
    · exact ⟨.choice (Assoc.mem_of_lookup h), rfl⟩
    · cases h
  | Seq a b ih _ =>
    obtain ⟨a', ha, rfl⟩ := map_eq_some_iff.mp h
    obtain ⟨hcont, hstop⟩ := ih ha
    refine ⟨.seq hcont, ?_⟩
    rw [unfold_head_seq (by rintro rfl; cases ha), hstop]
    rfl
  | _ => cases h

/-- Any number of steps at the head. -/
abbrev Unfolds : SessionTy → SessionTy → Prop := ReflTransGen fun s t => unfold_head s = some t

theorem Unfolds.stopped (h : Unfolds s t) (hs : unfold_head s = none) : s = t := by
  rcases ReflTransGen.cases_head h with heq | ⟨c, hc, -⟩
  · exact heq
  · rw [hs] at hc
    cases hc

/-- One that stops is where all the others come to. -/
theorem Unfolds.meets (h : Unfolds r s) (h' : Unfolds r t) (ht : unfold_head t = none) :
    Unfolds s t := by
  rcases ReflTransGen.total_of_right_unique
    (fun _ _ _ ha hb => Option.some.inj (ha.symm.trans hb)) h h' with h | h
  · exact h
  · exact Unfolds.stopped h ht ▸ .refl

theorem Unfolds.dual (h : Unfolds s t) : Unfolds (dual s) (dual t) := by
  refine ReflTransGen.lift session.dual (fun a b hab => ?_) _ _ h
  show unfold_head _ = _
  rw [unfold_head_dual, hab]
  rfl

theorem Sound.stops (hs : Sound s) :
    ∃ t, Unfolds s t ∧ session_rec.unfold_head t = none ∧ (t = .End ∨ Acts t) := by
  induction hm : head_size s using Nat.strongRecOn generalizing s with
  | ind m ih =>
  cases hstep : session_rec.unfold_head s with
  | none => exact ⟨s, .refl, hstep, ended_or_acts hs hstep⟩
  | some s' =>
    have hlt := head_size_unfold_head hs hstep
    obtain ⟨t, ht, hrest⟩ := ih _ (hm ▸ hlt) (hs.unfold_head hstep) rfl
    exact ⟨t, .head hstep ht, hrest⟩

theorem Sound.unfolds (hs : Sound s) (h : Unfolds s t) : Sound t := by
  induction h with
  | refl => exact hs
  | tail _ h ih => exact ih.unfold_head h

/-- The two parties have come, each for itself, from a type and its dual. -/
def Paired (c : SessionTy × SessionTy) : Prop :=
  ∃ r, Sound r ∧ Unfolds r c.1 ∧ Unfolds (dual r) c.2

theorem Paired.exchange {c d : SessionTy × SessionTy} (hc : Paired c) (h : Exchange c d) :
    Paired d := by
  obtain ⟨r, hr, hs, ht⟩ := hc
  cases h with
  | left h => exact ⟨r, hr, hs.tail h, ht⟩
  | right h => exact ⟨r, hr, hs, ht.tail h⟩
  | @message s s' t t' e h h' =>
    obtain ⟨hcont, hstop⟩ := after_spec h
    have hstop' : unfold_head (dual s) = none := by
      rw [unfold_head_dual, hstop]
      rfl
    -- both have stopped, so the second is at the dual of the first
    obtain rfl : dual s = t := (hs.dual.meets ht (after_spec h').2).stopped hstop'
    rw [after_dual, h] at h'
    obtain rfl := Option.some.inj h'
    exact ⟨s', (hr.unfolds hs).continues hcont, .refl, .refl⟩

/-- Two parties start from an accepted type and its dual. Whatever steps they take, the one
comes to `End` or to an action and the other to its dual, which is ready for what the first
may do there and for nothing else. -/
theorem dual_parties_meet (hwf : session.wf_session s = .ok ()) (hrec : wf_recursive s = .ok ())
    {p q : SessionTy} (h : ReflTransGen Exchange (s, dual s) (p, q)) :
    ∃ r, Unfolds p r ∧ Unfolds q (dual r) ∧ (r = .End ∨ Acts r) ∧
      ∀ e, after e.co (dual r) = (after e r).map dual := by
  have hpair : Paired (p, q) := by
    generalize (p, q) = c at h
    induction h with
    | refl => exact ⟨s, ⟨closed_of_wf hwf, allGuarded_of_check s hrec⟩, .refl, .refl⟩
    | tail _ h ih => exact ih.exchange h
  obtain ⟨r, hr, hp, hq⟩ := hpair
  obtain ⟨t, ht, hstop, hacts⟩ := hr.stops
  refine ⟨t, hp.meets ht hstop, hq.meets ht.dual ?_, hacts, fun e => after_dual e t⟩
  rw [unfold_head_dual, hstop]
  rfl

theorem two_binders_meet : ∃ r, Unfolds twoBinders r ∧ Unfolds (dual twoBinders) (dual r) ∧
    (r = .End ∨ Acts r) ∧ ∀ e, after e.co (dual r) = (after e r).map dual :=
  dual_parties_meet (by decide) (by decide) .refl

end paideia_as_types.session_rec
