-- The laws of unification over one call and over whole runs. A call that
-- goes through leaves the bindings of its leaves behind; a call that fails
-- leaves the bindings of the leaves before the failing one behind. A run is
-- any sequence of calls that went through, with any types interned between.
import PaideiaAs.Types.Unify

open FirstOrder

namespace paideia_as_types

open TypeInterner (has_iff)
open Subst (get_insert showns trees)

/-! ## One leaf -/

/-- The binding that a leaf makes when it goes through. A variable that meets
itself makes none. -/
def Leaf.binding : Leaf → Option (TyVar × TypeId)
  | .clash _ => none
  | .bind name _ t ty _ =>
    match ty.view with
    | .var other _ => if other = name then none else (TyVar.new name).map (·, t)
    | .node _ _ => (TyVar.new name).map (·, t)

theorem Leaf.of_binding {name : Nat} {kind : HrKind} {t u : TypeId} {ty : Ty} {deep : Bool}
    {v : TyVar} (h : (Leaf.bind name kind t ty deep).binding = some (v, u)) :
    u = t ∧ name = v.num := by
  have hmap : (TyVar.new name).map (·, t) = some (v, u) := by
    simp only [Leaf.binding] at h
    split at h
    · split at h
      · cases h
      · exact h
    · exact h
  simp only [Option.map_eq_some_iff, Prod.mk.injEq] at hmap
  obtain ⟨w, hn, rfl, rfl⟩ := hmap
  exact ⟨rfl, (TyVar.new_eq_some.mp hn).symm⟩

/-- The substitution after a leaf that goes through. -/
def Leaf.after (l : Leaf) (σ : Subst) : Subst :=
  match l.binding with
  | some (v, t) => σ.insert v t
  | none => σ

def Leaf.kindsDiffer : Leaf → Bool
  | .clash _ => false
  | .bind name kind _ ty _ =>
    match ty.view with
    | .var other other_kind => other != name && kind != other_kind
    | .node _ _ => false

/-- The leaf fails: two types that differ, two variables of different kinds, or
a variable that the occurs check finds in the other type. -/
def Leaf.fails (it : TypeInterner) (fuel : Nat) (σ : Subst) : Leaf → Bool
  | .clash _ => true
  | l@(.bind ..) =>
    l.kindsDiffer ||
      match l.binding with
      | none => false
      | some (v, t) => σ.occurs_in it v fuel t = .ok true

section

variable {it : TypeInterner} {fuel name : Nat} {kind : HrKind} {t : TypeId} {ty : Ty}
  {σ σ' : Subst} {l : Leaf}

theorem UnifyM.run_bind {α β : Type} (m : UnifyM α) (k : α → UnifyM β) (σ : Subst) :
    (m >>= k) σ = (match m σ with
      | .error f => .error f
      | .ok (.error e, σ') => .ok (.error e, σ')
      | .ok (.ok a, σ') => k a σ') := by
  simp only [bind, ExceptT.bind, ExceptT.mk, StateT.bind, Except.bind]
  cases m σ with
  | error f => rfl
  | ok r =>
    obtain ⟨x, σ'⟩ := r
    cases x <;> rfl

/-- The end of `bind`: the occurs check, and then the insert. -/
def checkedInsert (it : TypeInterner) (fuel name : Nat) (t : TypeId) (ty : Ty) : UnifyM Unit := do
  let v ← lift (Outcome.expect (TyVar.new name))
  if ← lift ((← getSubst).occurs_in it v fuel t) then
    throw (.OccursCheck v (.debugType ty))
  insertM v t

theorem checkedInsert_run : checkedInsert it fuel name t ty σ = match TyVar.new name with
    | none => .error .panic
    | some v =>
      match σ.occurs_in it v fuel t with
      | .error f => .error f
      | .ok true => .ok (.error (.OccursCheck v (.debugType ty)), σ)
      | .ok false => .ok (.ok (), σ.insert v t) := by
  unfold checkedInsert
  rw [UnifyM.run_bind]
  cases hn : TyVar.new name with
  | none => rfl
  | some v =>
    simp only [lift, ExceptT.mk, Outcome.expect_some, Except.map, UnifyM.run_bind, getSubst]
    cases ho : σ.occurs_in it v fuel t with
    | error f => rfl
    | ok b => cases b <;> rfl

theorem bind_node {h : Head} {cs : List TypeId} (hv : ty.view = .node h cs) :
    unify.bind it fuel name kind t ty = checkedInsert it fuel name t ty := by
  cases ty <;> first
    | rfl
    | simp [Ty.view] at hv

theorem bind_var {other : Nat} {other_kind : HrKind} :
    unify.bind it fuel name kind t (.Var other other_kind) =
      if other = name then pure ()
      else if kind = other_kind then checkedInsert it fuel name t (.Var other other_kind)
      else throw (.KindMismatch (.varWithKind name kind) (.varWithKind other other_kind)) := by
  by_cases h1 : other = name
  · simp [unify.bind, h1]
  · by_cases h2 : kind = other_kind
    · simp only [h1, h2, unify.bind, checkedInsert, if_false, if_true, ne_eq, not_true]
    · simp [unify.bind, h1, h2]

/-- What a leaf gives: a fault, or an error with nothing changed, or its binding. -/
def LeafGives (it : TypeInterner) (fuel : Nat) (l : Leaf) (σ : Subst) : Prop :=
  (∃ f, runLeaf it fuel l σ = .error f) ∨
  (l.fails it fuel σ = true ∧ ∃ e, runLeaf it fuel l σ = .ok (.error e, σ)) ∨
  (l.fails it fuel σ = false ∧ runLeaf it fuel l σ = .ok (.ok (), l.after σ))

theorem leafGives_checked {deep : Bool} (hk : (Leaf.bind name kind t ty deep).kindsDiffer = false)
    (hb : (Leaf.bind name kind t ty deep).binding = (TyVar.new name).map (·, t))
    (hrun : runLeaf it fuel (.bind name kind t ty deep) = checkedInsert it fuel name t ty) :
    LeafGives it fuel (.bind name kind t ty deep) σ := by
  unfold LeafGives
  rw [hrun, checkedInsert_run]
  cases hn : TyVar.new name with
  | none => exact .inl ⟨_, rfl⟩
  | some v =>
    simp only [hn, Option.map_some] at hb
    cases ho : σ.occurs_in it v fuel t with
    | error f => exact .inl ⟨f, by simp only [ho]⟩
    | ok b =>
      cases b with
      | true => exact .inr (.inl ⟨by simp [Leaf.fails, hk, hb, ho], _, by simp only [ho]; rfl⟩)
      | false =>
        refine .inr (.inr ⟨by simp [Leaf.fails, hk, hb, ho], ?_⟩)
        simp only [ho, Leaf.after, hb]

theorem runLeaf_gives (it : TypeInterner) (fuel : Nat) (l : Leaf) (σ : Subst) :
    LeafGives it fuel l σ := by
  cases l with
  | clash e => exact .inr (.inl ⟨rfl, e, rfl⟩)
  | bind name kind t ty deep =>
    cases hv : ty.view with
    | node h cs =>
      exact leafGives_checked (by simp [Leaf.kindsDiffer, hv]) (by simp [Leaf.binding, hv])
        (bind_node hv)
    | var other ok =>
      obtain rfl : ty = .Var other ok := by cases ty <;> simp_all [Ty.view]
      by_cases h1 : other = name
      · -- the variable meets itself
        refine .inr (.inr ⟨by simp [Leaf.fails, Leaf.kindsDiffer, Leaf.binding, Ty.view, h1], ?_⟩)
        simp only [runLeaf, bind_var, h1, if_true, Leaf.after, Leaf.binding, Ty.view]
        rfl
      · by_cases h2 : kind = ok
        · refine leafGives_checked (by simp [Leaf.kindsDiffer, Ty.view, h2])
            (by simp [Leaf.binding, Ty.view, h1]) ?_
          simp only [runLeaf, bind_var, h1, h2, if_true, if_false]
        · have hrun : runLeaf it fuel (.bind name kind t (.Var other ok) deep) = throw
              (.KindMismatch (.varWithKind name kind) (.varWithKind other ok)) := by
            simp only [runLeaf, bind_var, h1, h2, if_false]
          refine .inr (.inl ⟨by simp [Leaf.fails, Leaf.kindsDiffer, Ty.view, h1, h2], ?_⟩)
          exact ⟨_, by rw [hrun]; rfl⟩

end

/-! ## The leaves of one call -/

/-- The leaves before the first that fails. -/
def passed (it : TypeInterner) (fuel : Nat) : Subst → List Leaf → List Leaf
  | _, [] => []
  | σ, l :: ls => if l.fails it fuel σ then [] else l :: passed it fuel (l.after σ) ls

/-- The substitution after leaves that go through. -/
def afterAll (σ : Subst) (ls : List Leaf) : Subst := ls.foldl (fun σ l => l.after σ) σ

/-- The leaf binds nothing, or what its variable is bound to already. -/
def Leaf.Settled (σ : Subst) (l : Leaf) : Prop :=
  ∀ v t, l.binding = some (v, t) → σ.get v = some t

/-- The leaves before the first that fails on `σ` are settled in `σ`. -/
def SettledUntilFailure (it : TypeInterner) (fuel : Nat) (σ : Subst) (ls : List Leaf) : Prop :=
  ∀ l ∈ ls.takeWhile (fun l => !l.fails it fuel σ), l.Settled σ

/-- Two of the leaves bind one variable to different types. -/
def Rebinds (ls : List Leaf) : Prop :=
  ∃ l ∈ ls, ∃ m ∈ ls, ∃ v t u, l.binding = some (v, t) ∧ m.binding = some (v, u) ∧ t ≠ u

section

variable {it : TypeInterner} {fuel : Nat} {σ σ' : Subst} {ls : List Leaf}

theorem runLeaves_ok (h : ls.forM (runLeaf it fuel) σ = .ok (.ok (), σ')) :
    σ' = afterAll σ ls ∧ passed it fuel σ ls = ls := by
  induction ls generalizing σ with
  | nil =>
    cases h
    exact ⟨rfl, rfl⟩
  | cons l ls ih =>
    rw [List.forM_eq_forM, List.forM_cons, UnifyM.run_bind] at h
    rcases runLeaf_gives it fuel l σ with ⟨f, hf⟩ | ⟨_, e, he⟩ | ⟨hl, hok⟩
    · simp [hf] at h
    · simp [he] at h
    · simp only [hok] at h
      obtain ⟨h1, h2⟩ := ih h
      exact ⟨h1, by simp [passed, hl, h2]⟩

theorem runLeaves_err {e : UnifyError} (h : ls.forM (runLeaf it fuel) σ = .ok (.error e, σ')) :
    σ' = afterAll σ (passed it fuel σ ls) := by
  induction ls generalizing σ with
  | nil => cases h
  | cons l ls ih =>
    rw [List.forM_eq_forM, List.forM_cons, UnifyM.run_bind] at h
    rcases runLeaf_gives it fuel l σ with ⟨f, hf⟩ | ⟨hl, e', he⟩ | ⟨hl, hok⟩
    · simp [hf] at h
    · simp only [he, Except.ok.injEq, Prod.mk.injEq] at h
      rw [passed, if_pos hl, ← h.2]
      rfl
    · simp only [hok] at h
      rw [ih h, passed, if_neg (by simp [hl])]
      rfl

theorem mem_of_passed {l : Leaf} (h : l ∈ passed it fuel σ ls) : l ∈ ls := by
  induction ls generalizing σ with
  | nil => exact h
  | cons m ls ih =>
    rw [passed] at h
    split at h
    · cases h
    · rcases List.mem_cons.mp h with rfl | h
      · exact List.mem_cons_self
      · exact List.mem_cons_of_mem _ (ih h)

theorem Leaf.Settled.after {l : Leaf} (h : l.Settled σ) : l.after σ = σ := by
  unfold Leaf.after
  cases hb : l.binding with
  | none => rfl
  | some p =>
    refine congrArg Subst.mk (funext fun w => ?_)
    split
    · rename_i hw
      rw [hw]
      exact (h p.1 p.2 hb).symm
    · rfl

/-- A variable keeps a type that every leaf that binds it binds it to. -/
theorem get_afterAll {v : TyVar} {t : TypeId} (hv : σ.get v = some t)
    (hls : ∀ l ∈ ls, ∀ u, l.binding = some (v, u) → u = t) : (afterAll σ ls).get v = some t := by
  induction ls generalizing σ with
  | nil => exact hv
  | cons l ls ih =>
    refine ih (σ := l.after σ) ?_ fun m hm => hls m (List.mem_cons_of_mem _ hm)
    unfold Leaf.after
    cases hb : l.binding with
    | none => exact hv
    | some p =>
      rw [get_insert]
      split
      · rename_i hw
        rw [hls l List.mem_cons_self p.2 (by rw [hb, hw])]
      · exact hv

theorem afterAll_settled (h : SettledUntilFailure it fuel σ ls) :
    afterAll σ (passed it fuel σ ls) = σ := by
  induction ls with
  | nil => rfl
  | cons l ls ih =>
    rw [passed]
    split
    · rfl
    · rename_i hl
      simp only [SettledUntilFailure, List.takeWhile_cons, hl, Bool.not_false, if_true,
        List.forall_mem_cons] at h
      have hstep : afterAll σ (l :: passed it fuel (l.after σ) ls) =
        afterAll (l.after σ) (passed it fuel (l.after σ) ls) := rfl
      rw [hstep, h.1.after]
      exact ih h.2

/-- Leaves that leave every binding as it was are settled, where no two of them
bind one variable to different types. -/
theorem settled_of_kept (hr : ¬ Rebinds ls)
    (hkeep : ∀ v, (afterAll σ (passed it fuel σ ls)).get v = σ.get v) :
    SettledUntilFailure it fuel σ ls := by
  induction ls with
  | nil => simp [SettledUntilFailure]
  | cons l ls ih =>
    by_cases hl : l.fails it fuel σ = true
    · simp [SettledUntilFailure, hl]
    · rw [passed, if_neg hl] at hkeep
      have hset : l.Settled σ := by
        intro v t hb
        rw [← hkeep v]
        refine get_afterAll (σ := l.after σ) (by simp [Leaf.after, hb, get_insert]) fun m hm u hu => ?_
        by_contra hne
        exact hr ⟨m, List.mem_cons_of_mem _ (mem_of_passed hm), l, List.mem_cons_self, v, u, t,
          hu, hb, hne⟩
      have hrest : SettledUntilFailure it fuel σ ls := by
        refine ih (fun ⟨m, hm, n, hn, h⟩ => hr ⟨m, .tail _ hm, n, .tail _ hn, h⟩) fun v => ?_
        have hstep : afterAll σ (l :: passed it fuel (l.after σ) ls) =
          afterAll (l.after σ) (passed it fuel (l.after σ) ls) := rfl
        rw [hstep, hset.after] at hkeep
        exact hkeep v
      simpa [SettledUntilFailure, hl] using ⟨hset, hrest⟩

end

/-! ## A call that fails -/

/-- A call of `unify` that fails leaves every binding as it was where the leaves
before the failing one bind nothing that was not bound so before the call, and only
there, unless two leaves bind one variable to different types. -/
theorem unify_err_keeps_subst_iff (it : Interner) (fuel : Nat) {σ σ' : Subst} {a b : TypeId}
    {e : UnifyError} (ha : it.1.Has a) (hb : it.1.Has b)
    (h : unify it.1 fuel a b σ = .ok (.error e, σ')) :
    (SettledUntilFailure it.1 fuel σ (leaves it.1 a b) → ∀ v, σ'.get v = σ.get v) ∧
      ((∀ v, σ'.get v = σ.get v) →
        SettledUntilFailure it.1 fuel σ (leaves it.1 a b) ∨ Rebinds (leaves it.1 a b)) := by
  rw [unify_eq_leaves it.2 ha hb] at h
  rw [runLeaves_err h]
  constructor
  · intro hset v
    rw [afterAll_settled hset]
  · intro hkeep
    by_cases hr : Rebinds (leaves it.1 a b)
    · exact .inr hr
    · exact .inl (settled_of_kept hr hkeep)

/-- `α`, `u64`, `bool`, `(α, u64)` and `(bool, bool)`. -/
def pairTypes : Interner :=
  ⟨⟨[.Var 1 .Star, .UInt 64, .Bool, .Tuple [⟨0⟩, ⟨1⟩], .Tuple [⟨2⟩, ⟨2⟩] ]⟩, by decide⟩

/-- `(α, u64)` against `(bool, bool)` fails in the second component, and `α` stays
bound to `bool`. -/
theorem failed_unify_binds_variable : ∃ e σ', unify pairTypes.1 1 ⟨3⟩ ⟨4⟩ .new = .ok (.error e, σ') ∧
    σ'.get ⟨1, by decide⟩ = some ⟨2⟩ ∧ Subst.new.get ⟨1, by decide⟩ = none :=
  ⟨_, _, rfl, rfl, rfl⟩

/-- With `α` bound to `bool` before, the same call fails and changes nothing. -/
theorem failed_unify_keeps_equal_binding :
    ∃ e σ', unify pairTypes.1 1 ⟨3⟩ ⟨4⟩ (Subst.new.insert ⟨1, by decide⟩ ⟨2⟩) = .ok (.error e, σ') ∧
      ∀ v, σ'.get v = (Subst.new.insert ⟨1, by decide⟩ ⟨2⟩).get v := by
  refine ⟨_, _, rfl, ?_⟩
  refine (unify_err_keeps_subst_iff pairTypes 1 (a := ⟨3⟩) (b := ⟨4⟩) (by decide) (by decide)
    rfl).1 ?_
  intro l hl v t hb
  obtain rfl : l = .bind 1 .Star ⟨2⟩ .Bool false := List.mem_singleton.mp hl
  cases hb
  rfl

/-! ## Runs -/

/-- A run from the empty substitution: types may be interned at any time, and each
call of `unify` goes through. `C` says what holds of the substitution and the leaves
before each call. The list holds the pairs unified so far. -/
inductive Run (C : TypeInterner → Subst → List Leaf → Prop) :
    Interner → List (TypeId × TypeId) → Subst → Prop
  | new (it : Interner) : Run C it [] .new
  | grow {it it' : Interner} {ps : List (TypeId × TypeId)} {σ : Subst} :
      Run C it ps σ → it.1.Grows it'.1 → Run C it' ps σ
  | unify {it : Interner} {ps : List (TypeId × TypeId)} {σ σ' : Subst} {a b : TypeId} (fuel : Nat) :
      Run C it ps σ → it.1.Has a → it.1.Has b → C it.1 σ (leaves it.1 a b) →
      unify it.1 fuel a b σ = .ok (.ok (), σ') → Run C it (ps ++ [(a, b)]) σ'

/-- A condition on each leaf, with the substitution as it is when `unify` comes to it. -/
def EachLeaf (P : TypeInterner → Subst → Leaf → Prop) (it : TypeInterner) : Subst → List Leaf → Prop
  | _, [] => True
  | σ, l :: ls => P it σ l ∧ EachLeaf P it (l.after σ) ls

section

variable {it it' : TypeInterner} {σ : Subst} {t : TypeId} {v : TyVar}

/-- The variable with the number of `v`, of any kind. -/
def IsVar (v : TyVar) (w : Nat × HrKind) : Prop := w.1 = v.num

instance (v : TyVar) : DecidablePred (IsVar v) := fun _ => inferInstanceAs (Decidable (_ = _))

theorem bind_get_insert (w : Nat × HrKind) : (TyVar.new w.1).bind (σ.insert v t).get =
      if IsVar v w then some t else (TyVar.new w.1).bind σ.get := by
  unfold IsVar
  cases hn : TyVar.new w.1 with
  | none =>
    have hw : w.1 ≠ v.num := fun he => by simp [he, v.new_num] at hn
    simp [hw]
  | some u =>
    have hu := TyVar.new_eq_some.mp hn
    simp only [Option.bind_some, get_insert]
    by_cases huv : u = v
    · subst huv; simp [hu]
    · have hne : w.1 ≠ v.num := by
        intro he
        rw [he, v.new_num, Option.some.injEq] at hn
        exact huv hn.symm
      simp [huv, hne]

theorem showns_new : Subst.new.showns it = fun _ => none := by
  funext w
  cases hw : TyVar.new w.1 <;> simp [showns, hw]

theorem trees_new : Subst.new.trees it = fun _ => none := by
  funext w
  cases hw : TyVar.new w.1 <;> simp [trees, hw]

theorem showns_insert :
    (σ.insert v t).showns it = assign (σ.showns it) (IsVar v) (shown (tree it t)) := by
  funext w
  unfold showns assign
  rw [bind_get_insert]
  by_cases hw : IsVar v w <;> simp [hw]

theorem trees_insert : (σ.insert v t).trees it = assign (σ.trees it) (IsVar v) (tree it t) := by
  funext w
  unfold trees assign
  rw [bind_get_insert]
  by_cases hw : IsVar v w <;> simp [hw]

theorem showns_grows (hg : it.Good) (h : it.Grows it') (hr : σ.InRange it) :
    σ.showns it' = σ.showns it := by
  funext w
  unfold showns
  cases hw : (TyVar.new w.1).bind σ.get with
  | none => rfl
  | some t =>
    obtain ⟨u, _, hu⟩ := Option.bind_eq_some_iff.mp hw
    simp [tree_grows h hg (hr u t hu)]

theorem trees_grows (hg : it.Good) (h : it.Grows it') (hr : σ.InRange it) :
    σ.trees it' = σ.trees it := by
  funext w
  unfold trees
  cases hw : (TyVar.new w.1).bind σ.get with
  | none => rfl
  | some t =>
    obtain ⟨u, _, hu⟩ := Option.bind_eq_some_iff.mp hw
    simp [tree_grows h hg (hr u t hu)]

theorem inRange_insert (hr : σ.InRange it) (ht : it.Has t) : (σ.insert v t).InRange it := by
  intro w u hu
  rw [get_insert] at hu
  split at hu
  · cases hu; exact ht
  · exact hr w u hu

/-- The types that leaves bind are types of the interner. -/
theorem leavesN_has (hg : it.Good) {depth : Nat} {deep : Bool} {a b : TypeId} (ha : it.Has a)
    (hb : it.Has b) : ∀ l ∈ leavesN it depth deep a b, ∀ v t, l.binding = some (v, t) → it.Has t := by
  induction depth generalizing a b deep with
  | zero => simp [leavesN]
  | succ depth ih =>
    obtain ⟨ta, hta⟩ := has_iff.mp ha
    obtain ⟨tb, htb⟩ := has_iff.mp hb
    intro l hl v t hbind
    simp only [leavesN, hta, htb] at hl
    split at hl
    · rw [List.mem_singleton.mp hl] at hbind
      rwa [(Leaf.of_binding hbind).1]
    · rw [List.mem_singleton.mp hl] at hbind
      rwa [(Leaf.of_binding hbind).1]
    · obtain ⟨p, hp, hlp⟩ := List.mem_flatMap.mp hl
      cases p with
      | clash e =>
        rw [List.mem_singleton.mp hlp] at hbind
        cases hbind
      | pair x y =>
        obtain ⟨hx, hy⟩ := mem_parts hp
        exact ih (hg.child_has hta hx) (hg.child_has htb hy) l hlp v t hbind

theorem afterAll_append (σ : Subst) (ls ms : List Leaf) :
    afterAll σ (ls ++ ms) = afterAll (afterAll σ ls) ms := by
  simp [afterAll, List.foldl_append]

theorem eachLeaf_append {P : TypeInterner → Subst → Leaf → Prop} {ls ms : List Leaf} :
    EachLeaf P it σ (ls ++ ms) ↔ EachLeaf P it σ ls ∧ EachLeaf P it (afterAll σ ls) ms := by
  induction ls generalizing σ with
  | nil => simp [EachLeaf, afterAll]
  | cons l ls ih =>
    have hstep : afterAll σ (l :: ls) = afterAll (l.after σ) ls := rfl
    simp [EachLeaf, ih, hstep, and_assoc]

theorem inRange_afterAll {ls : List Leaf} (hr : σ.InRange it)
    (hl : ∀ l ∈ ls, ∀ v t, l.binding = some (v, t) → it.Has t) : (afterAll σ ls).InRange it := by
  induction ls generalizing σ with
  | nil => exact hr
  | cons l ls ih =>
    have hstep : (l.after σ).InRange it := by
      unfold Leaf.after
      cases hb : l.binding with
      | none => exact hr
      | some p => exact inRange_insert hr (hl l (by simp) p.1 p.2 hb)
    exact ih hstep fun m hm => hl m (.tail _ hm)

end

/-! ## What was unified stays equal -/

/-- A leaf that keeps what was unified. A variable that meets itself has one kind, or
both sides resolve to one type already. A variable that meets another type does so
where `apply` goes, is not met behind that type, and is free or agrees with it. -/
def SoundLeaf (it : TypeInterner) (σ : Subst) (l : Leaf) : Prop :=
  match l with
  | .clash _ => True
  | .bind name kind t _ deep =>
    match l.binding with
    | none => tree it t = .var (name, kind) ∨
        deep = false ∧ Agree (σ.showns it) (.var (name, kind)) (shown (tree it t))
    | some (v, _) => deep = false ∧
        (∀ w, IsVar v w → ¬ Meets (σ.showns it) (shown (tree it t)) w) ∧
        (σ.get v = none ∨ Agree (σ.showns it) (.var (name, kind)) (shown (tree it t)))

/-- The same tree, or trees that are shown to agree. -/
def Matched (it : TypeInterner) (σ : Subst) : Bool → Tree → Tree → Prop
  | true, x, y => x = y
  | false, x, y => Agree (σ.showns it) (shown x) (shown y)

section

variable {it : TypeInterner} {σ : Subst} {l : Leaf} {ls : List Leaf} {x y : Shown}

theorem agree_of_bound {v : TyVar} {u : TypeId} {w w' : Nat × HrKind} (hu : σ.get v = some u)
    (hw : IsVar v w) (hw' : IsVar v w') (h : Agree (σ.showns it) (.var w) x) :
    Agree (σ.showns it) (.var w') x := by
  obtain ⟨r, hr, hx⟩ := h
  refine ⟨r, ?_, hx⟩
  have hsome : ∀ w, IsVar v w → σ.showns it w = some (shown (tree it u)) := by
    intro w hw
    unfold IsVar at hw
    simp [showns, hw, v.new_num, hu]
  cases hr with
  | unbound hn => simp [hsome w hw] at hn
  | bound hb ht =>
    rw [hsome w hw, Option.some.injEq] at hb
    subst hb
    exact .bound (hsome w' hw') ht

theorem SoundLeaf.keeps (hT : Resolving (σ.showns it)) (h : SoundLeaf it σ l) :
    Resolving ((l.after σ).showns it) ∧
      ∀ x y, Agree (σ.showns it) x y → Agree ((l.after σ).showns it) x y := by
  cases l with
  | clash e => exact ⟨hT, fun _ _ h => h⟩
  | bind name kind t ty deep =>
    unfold Leaf.after
    simp only [SoundLeaf] at h
    cases hb : (Leaf.bind name kind t ty deep).binding with
    | none => exact ⟨hT, fun _ _ h => h⟩
    | some p =>
      obtain ⟨v, u⟩ := p
      obtain ⟨rfl, hname⟩ := Leaf.of_binding hb
      simp only [hb] at h
      obtain ⟨_, hmeet, hfree⟩ := h
      simp only [showns_insert]
      refine ⟨hT.assign hmeet, fun x y hxy => ?_⟩
      have hname : IsVar v (name, kind) := hname
      cases hv : σ.get v with
      | none =>
        refine hxy.assign_unbound hT (fun w hw => ?_) hmeet
        unfold IsVar at hw
        simp [showns, hw, v.new_num, hv]
      | some u' =>
        simp only [hv, reduceCtorEq, false_or] at hfree
        exact hxy.assign_agreeing (fun w hw => agree_of_bound hv hname hw hfree) hmeet hT

variable {deep : Bool}

theorem SoundLeaf.matched {name : Nat} {kind : HrKind} {t : TypeId} {ty : Ty}
    (hT : Resolving (σ.showns it)) (h : SoundLeaf it σ (.bind name kind t ty deep)) :
    Matched it ((Leaf.bind name kind t ty deep).after σ) deep (.var (name, kind)) (tree it t) := by
  unfold Leaf.after
  simp only [SoundLeaf] at h
  cases hb : (Leaf.bind name kind t ty deep).binding with
  | none =>
    simp only [hb] at h ⊢
    rcases h with h | ⟨rfl, h⟩
    · obtain ⟨r, hr⟩ := hT (shown (tree it t))
      cases deep with
      | true => exact h.symm
      | false =>
        rw [h] at hr ⊢
        exact ⟨r, hr, hr⟩
    · exact h
  | some p =>
    obtain ⟨v, u⟩ := p
    obtain ⟨rfl, hname⟩ := Leaf.of_binding hb
    simp only [hb] at h ⊢
    obtain ⟨rfl, hmeet, _⟩ := h
    simp only [Matched, showns_insert]
    exact agree_assign_self (w := (name, kind)) hname hT hmeet

theorem eachSound_keeps (hT : Resolving (σ.showns it)) (h : EachLeaf SoundLeaf it σ ls) :
    Resolving ((afterAll σ ls).showns it) ∧
      ∀ x y, Agree (σ.showns it) x y → Agree ((afterAll σ ls).showns it) x y := by
  induction ls generalizing σ with
  | nil => exact ⟨hT, fun _ _ h => h⟩
  | cons l ls ih =>
    obtain ⟨hl, hls⟩ := h
    obtain ⟨hT', hk⟩ := hl.keeps hT
    obtain ⟨hT'', hk'⟩ := ih hT' hls
    exact ⟨hT'', fun x y hxy => hk' x y (hk x y hxy)⟩

theorem Matched.symm {x y : Tree} (h : Matched it σ deep x y) : Matched it σ deep y x := by
  cases deep with
  | true => exact Eq.symm h
  | false =>
    obtain ⟨r, hx, hy⟩ := h
    exact ⟨r, hy, hx⟩

theorem Matched.keeps {x y : Tree} (h : Matched it σ deep x y)
    (hT : Resolving (σ.showns it)) (hls : EachLeaf SoundLeaf it σ ls) :
    Matched it (afterAll σ ls) deep x y := by
  cases deep with
  | true => exact h
  | false => exact (eachSound_keeps hT hls).2 _ _ h

/-- Types with one head match when their parts do, the parts being deep below a head
that `apply` does not go below. -/
theorem Matched.node {h : Head} {xs ys : List Tree} (hT : Resolving (σ.showns it))
    (hxy : List.Forall₂ (Matched it σ (deep || !walked h)) xs ys) :
    Matched it σ deep ((Term.con h).apps xs) ((Term.con h).apps ys) := by
  cases hdeep : (deep || !walked h) with
  | true =>
    rw [hdeep] at hxy
    have hall : List.Forall₂ Eq xs ys := hxy
    obtain rfl : xs = ys := by simpa [List.forall₂_eq_eq_eq] using hall
    cases deep with
    | true => rfl
    | false =>
      obtain ⟨r, hr⟩ := hT (shown ((Term.con h).apps xs))
      exact ⟨r, hr, hr⟩
  | false =>
    obtain ⟨rfl, hw⟩ : deep = false ∧ walked h = true := by simpa using hdeep
    have hspine : (spine (Term.con h : Tree)).any walked = true := by simpa [spine] using hw
    simp only [Matched, shown_apps_walked hspine]
    refine (Agree.con _).apps ?_
    rw [List.forall₂_map_left_iff, List.forall₂_map_right_iff]
    rw [hdeep] at hxy
    exact hxy

theorem pairs_matched {f : TypeId → TypeId → List Leaf} {cs ds : List TypeId}
    (hf : ∀ c ∈ cs, ∀ d ∈ ds, ∀ σ : Subst, Resolving (σ.showns it) → EachLeaf SoundLeaf it σ (f c d) →
      (∀ e, Leaf.clash e ∉ f c d) → Matched it (afterAll σ (f c d)) deep (tree it c) (tree it d))
    (hlen : cs.length = ds.length) (hT : Resolving (σ.showns it))
    (hs : EachLeaf SoundLeaf it σ ((zipParts cs ds).flatMap (partLeaves f)))
    (hc : ∀ e, Leaf.clash e ∉ (zipParts cs ds).flatMap (partLeaves f)) :
    List.Forall₂ (Matched it (afterAll σ ((zipParts cs ds).flatMap (partLeaves f))) deep)
      (cs.map (tree it)) (ds.map (tree it)) := by
  induction cs generalizing ds σ with
  | nil =>
    cases ds with
    | nil => exact .nil
    | cons d ds => simp at hlen
  | cons c cs ih =>
    cases ds with
    | nil => simp at hlen
    | cons d ds =>
      have hsplit : (zipParts (c :: cs) (d :: ds)).flatMap (partLeaves f) =
          f c d ++ (zipParts cs ds).flatMap (partLeaves f) := rfl
      rw [hsplit] at hs hc ⊢
      obtain ⟨hs1, hs2⟩ := eachLeaf_append.mp hs
      rw [afterAll_append]
      have hfirst := hf c (by simp) d (by simp) σ hT hs1 fun e he => hc e (by simp [he])
      have hT1 := (eachSound_keeps hT hs1).1
      refine .cons (hfirst.keeps hT1 hs2) (ih ?_ (by simpa using hlen) hT1 hs2 ?_)
      · exact fun c' hc' d' hd' => hf c' (by simp [hc']) d' (by simp [hd'])
      · exact fun e he => hc e (List.mem_append_right _ he)

theorem leavesN_matched (hg : it.Good) {depth : Nat} {a b : TypeId}
    (hd : a.index < depth) (ha : it.Has a) (hb : it.Has b) (hT : Resolving (σ.showns it))
    (hs : EachLeaf SoundLeaf it σ (leavesN it depth deep a b))
    (hc : ∀ e, Leaf.clash e ∉ leavesN it depth deep a b) :
    Matched it (afterAll σ (leavesN it depth deep a b)) deep (tree it a) (tree it b) := by
  induction depth generalizing a b deep σ with
  | zero => omega
  | succ depth ih =>
    obtain ⟨ta, hta⟩ := has_iff.mp ha
    obtain ⟨tb, htb⟩ := has_iff.mp hb
    cases hva : ta.view with
    | var n k =>
      simp only [leavesN, hta, htb, hva] at hs ⊢
      rw [tree_var hg hta hva]
      exact hs.1.matched hT
    | node h cs =>
      cases hvb : tb.view with
      | var n k =>
        simp only [leavesN, hta, htb, hva, hvb] at hs ⊢
        rw [tree_var hg htb hvb]
        exact (hs.1.matched hT).symm
      | node h' ds =>
        simp only [leavesN, hta, htb, hva, hvb] at hs hc ⊢
        have hclash : Clashless (parts ta tb) := by
          intro e he
          exact hc e (List.mem_flatMap.mpr ⟨_, he, by simp [partLeaves]⟩)
        obtain ⟨hd', cs', ds', h1, h2, hlen, hp⟩ :=
          parts_clashless (by simp [hva]) (by simp [hvb]) hclash
        rw [hva, View.node.injEq] at h1
        rw [hvb, View.node.injEq] at h2
        obtain ⟨rfl, rfl⟩ := h1
        obtain ⟨rfl, rfl⟩ := h2
        rw [hp] at hs hc ⊢
        rw [tree_node hg hta hva, tree_node hg htb hvb]
        refine Matched.node (eachSound_keeps hT hs).1 (pairs_matched ?_ hlen hT hs hc)
        intro c hcc d hdd σ' hT' hs' hc'
        have hcm : c ∈ ta.children := by simpa [Ty.children, hva] using hcc
        have hdm : d ∈ tb.children := by simpa [Ty.children, hvb] using hdd
        have hlt := hg.child_lt hta hcm
        exact ih (by omega) (hg.child_has hta hcm) (hg.child_has htb hdm) hT' hs' hc'

end

variable {it : TypeInterner} {σ : Subst}

theorem not_clash_of_passed {fuel : Nat} {ls : List Leaf}
    (h : passed it fuel σ ls = ls) : ∀ e, Leaf.clash e ∉ ls := by
  induction ls generalizing σ with
  | nil => simp
  | cons l ls ih =>
    rw [passed] at h
    split at h
    · cases h
    · rename_i hl
      rw [List.cons.injEq] at h
      intro e he
      rcases List.mem_cons.mp he with rfl | he
      · exact hl rfl
      · exact ih h.2 e he

/-- A call that went through, by its leaves. -/
theorem unify_ok_leaves (it : Interner) {fuel : Nat} {σ' : Subst} {a b : TypeId}
    (ha : it.1.Has a) (hb : it.1.Has b) (h : unify it.1 fuel a b σ = .ok (.ok (), σ')) :
    σ' = afterAll σ (leaves it.1 a b) ∧ ∀ e, Leaf.clash e ∉ leaves it.1 a b := by
  rw [unify_eq_leaves it.2 ha hb] at h
  obtain ⟨h1, h2⟩ := runLeaves_ok h
  exact ⟨h1, not_clash_of_passed h2⟩

/-- What a run of sound leaves keeps: every type resolves, and the pairs unified agree. -/
structure Unified (it : TypeInterner) (ps : List (TypeId × TypeId)) (σ : Subst) : Prop where
  inRange : σ.InRange it
  resolving : Resolving (σ.showns it)
  has : ∀ p ∈ ps, it.Has p.1 ∧ it.Has p.2
  agree : ∀ p ∈ ps, Agree (σ.showns it) (shown (tree it p.1)) (shown (tree it p.2))

theorem unified_of_run {it : Interner} {ps : List (TypeId × TypeId)}
    (h : Run (EachLeaf SoundLeaf) it ps σ) : Unified it.1 ps σ := by
  induction h with
  | new it =>
    refine ⟨fun v t h => by simp at h, ?_, by simp, by simp⟩
    rw [showns_new]
    exact resolving_none
  | @grow it it' ps σ _ hgrow ih =>
    have hsame := showns_grows it.2 hgrow ih.inRange
    refine ⟨fun v t hv => hgrow.has (ih.inRange v t hv), hsame ▸ ih.resolving, ?_, ?_⟩
    · exact fun p hp => ⟨hgrow.has (ih.has p hp).1, hgrow.has (ih.has p hp).2⟩
    · intro p hp
      rw [hsame, tree_grows hgrow it.2 (ih.has p hp).1, tree_grows hgrow it.2 (ih.has p hp).2]
      exact ih.agree p hp
  | @unify it ps σ σ' a b fuel _ ha hb hsound hrun ih =>
    obtain ⟨rfl, hclash⟩ := unify_ok_leaves it ha hb hrun
    obtain ⟨hres, hkeep⟩ := eachSound_keeps ih.resolving hsound
    refine ⟨inRange_afterAll ih.inRange (leavesN_has it.2 ha hb), hres, ?_, ?_⟩
    · intro p hp
      rcases List.mem_append.mp hp with hp | hp
      · exact ih.has p hp
      · rw [List.mem_singleton.mp hp]
        exact ⟨ha, hb⟩
    · intro p hp
      rcases List.mem_append.mp hp with hp | hp
      · exact hkeep _ _ (ih.agree p hp)
      · rw [List.mem_singleton.mp hp]
        exact leavesN_matched it.2 (Nat.lt_succ_self _) ha hb ih.resolving hsound hclash

/-- `subst.apply(a)` and then `subst.apply(b)` give one type, up to effect rows,
capability sets and lifetimes. -/
def SameApplied (it : TypeInterner) (σ : Subst) (a b : TypeId) : Prop :=
  ∃ fuel a' it₁ b' it₂, σ.apply fuel a it = .ok (a', it₁) ∧ σ.apply fuel b it₁ = .ok (b', it₂) ∧
    tree it₂ a' = tree it₂ b'

theorem sameApplied_of_agree {it : Interner} {a b : TypeId} (hr : σ.InRange it.1)
    (ha : it.1.Has a) (hb : it.1.Has b)
    (h : Agree (σ.showns it.1) (shown (tree it.1 a)) (shown (tree it.1 b))) :
    SameApplied it.1 σ a b := by
  obtain ⟨r, h1, h2⟩ := h
  obtain ⟨n, hn⟩ := (Subst.gives_of_resolves it.2 hr h1).1 a ha rfl
  obtain ⟨m, hm⟩ := (Subst.gives_of_resolves it.2 hr h2).1 b hb rfl
  obtain ⟨a', it₁, happ₁, hg₁, hgr₁, has₁, hs₁⟩ :=
    hn (max n m) (by omega) it.1 it.2 (.refl _)
  obtain ⟨b', it₂, happ₂, _, hgr₂, _, hs₂⟩ := hm (max n m) (by omega) it₁ hg₁ hgr₁
  refine ⟨_, a', it₁, b', it₂, happ₁, happ₂, shown_inj ?_⟩
  rw [tree_grows hgr₂ hg₁ has₁, hs₁, hs₂]

/-- In a run of sound leaves, every pair of types that was unified is one type under
the substitution of the moment. -/
theorem unified_pairs_stay_equal {it : Interner} {ps : List (TypeId × TypeId)} {σ : Subst}
    (h : Run (EachLeaf SoundLeaf) it ps σ) : ∀ p ∈ ps, SameApplied it.1 σ p.1 p.2 := by
  intro p hp
  have hu := unified_of_run h
  exact sameApplied_of_agree hu.inRange (hu.has p hp).1 (hu.has p hp).2 (hu.agree p hp)

/-- `α` with `u64` and then `α` with `u64` again: the run is sound. -/
theorem rebinding_to_same_type_stays_equal : ∃ σ,
    Run (EachLeaf SoundLeaf) pairTypes [(⟨0⟩, ⟨1⟩), (⟨0⟩, ⟨1⟩)] σ ∧
      SameApplied pairTypes.1 σ ⟨0⟩ ⟨1⟩ := by
  have hno : ∀ (σ : Subst) w, ¬ Meets (σ.showns pairTypes.1) (shown (tree pairTypes.1 ⟨1⟩)) w := by
    rintro σ w (h | ⟨h, _, _⟩) <;> exact h
  have hrun : Run (EachLeaf SoundLeaf) pairTypes [(⟨0⟩, ⟨1⟩), (⟨0⟩, ⟨1⟩)]
      ((Subst.new.insert ⟨1, by decide⟩ ⟨1⟩).insert ⟨1, by decide⟩ ⟨1⟩) := by
    refine .unify 1 (.unify 1 (.new _) (by decide) (by decide) ?_ rfl)
      (by decide) (by decide) ?_ rfl
    · exact ⟨⟨rfl, fun w _ => hno _ w, .inl rfl⟩, trivial⟩
    · exact ⟨⟨rfl, fun w _ => hno _ w, .inr ⟨_, .bound rfl (.con _), .con _⟩⟩, trivial⟩
  exact ⟨_, hrun, unified_pairs_stay_equal hrun (⟨0⟩, ⟨1⟩) (by simp)⟩

/-- `α` with `u64` and then `α` with `bool`: both calls go through, and the first pair
is equal no more. -/
theorem rebinding_breaks_unified_pair : ∃ σ,
    Run (fun _ _ _ => True) pairTypes [(⟨0⟩, ⟨1⟩), (⟨0⟩, ⟨2⟩)] σ ∧
      ¬ SameApplied pairTypes.1 σ ⟨0⟩ ⟨1⟩ := by
  refine ⟨(Subst.new.insert ⟨1, by decide⟩ ⟨1⟩).insert ⟨1, by decide⟩ ⟨2⟩, ?_, ?_⟩
  · exact .unify 1 (.unify 1 (.new _) (by decide) (by decide) trivial rfl)
      (by decide) (by decide) trivial rfl
  · rintro ⟨fuel, a', it₁, b', it₂, h1, h2, h3⟩
    match fuel with
    | 0 => cases h1
    | 1 => cases h1
    | n + 2 =>
      cases h1
      cases h2
      exact absurd h3 (by decide)

/-! ## No variable reaches itself -/

/-- A leaf that closes no cycle and leaves the occurs check an end: the variable is not
met behind the type it gets, and that type has no variable where the occurs check looks. -/
def FreshLeaf (it : TypeInterner) (σ : Subst) (l : Leaf) : Prop :=
  ∀ v t, l.binding = some (v, t) →
    (∀ w, IsVar v w → ¬ Meets (σ.trees it) (tree it t) w) ∧
    ∀ w, ¬ Term.Mem w (shown (tree it t))

theorem mem_of_mem_shown {x : Tree} {w : Nat × HrKind} (h : Term.Mem w (shown x)) :
    Term.Mem w x := by
  induction x with
  | var v => exact h
  | con l => exact h
  | app f x ihf ihx =>
    unfold shown at h
    split at h
    · exact h.imp ihf ihx
    · exact absurd h Term.mem_con

/-- What is met through the types as shown is met through the types in full. -/
theorem meets_of_meets_shown {x : Tree} {w : Nat × HrKind}
    (h : Meets (σ.showns it) (shown x) w) : Meets (σ.trees it) x w := by
  generalize hy : shown x = y at h
  induction h generalizing x with
  | here hm => exact .here (mem_of_mem_shown (hy ▸ hm))
  | @there y u w' w hm hw _ ih =>
    unfold showns at hw
    obtain ⟨t, ht, rfl⟩ := Option.map_eq_some_iff.mp hw
    refine .there (mem_of_mem_shown (hy ▸ hm)) ?_ (ih rfl)
    simp [trees, ht]

/-- What a run of fresh leaves keeps. -/
structure CycleFree (it : TypeInterner) (σ : Subst) : Prop where
  inRange : σ.InRange it
  acyclic : Acyclic (σ.trees it)
  resolving : Resolving (σ.showns it)
  closed : ∀ v t, σ.get v = some t → ∀ w, ¬ Term.Mem w (shown (tree it t))

theorem CycleFree.after {l : Leaf} (h : CycleFree it σ)
    (hf : FreshLeaf it σ l) (hl : ∀ v t, l.binding = some (v, t) → it.Has t) :
    CycleFree it (l.after σ) := by
  unfold Leaf.after
  cases hb : l.binding with
  | none => exact h
  | some p =>
    obtain ⟨v, t⟩ := p
    obtain ⟨hmeet, hclosed⟩ := hf v t hb
    refine ⟨inRange_insert h.inRange (hl v t hb), ?_, ?_, ?_⟩
    · rw [trees_insert]
      exact h.acyclic.assign hmeet
    · rw [showns_insert]
      exact h.resolving.assign fun w hw hm => hmeet w hw (meets_of_meets_shown hm)
    · intro u s hu
      simp only [get_insert] at hu
      split at hu
      · cases hu
        exact hclosed
      · exact h.closed u s hu

theorem CycleFree.afterAll {ls : List Leaf} (h : CycleFree it σ) (hf : EachLeaf FreshLeaf it σ ls)
    (hl : ∀ l ∈ ls, ∀ v t, l.binding = some (v, t) → it.Has t) :
    CycleFree it (paideia_as_types.afterAll σ ls) := by
  induction ls generalizing σ with
  | nil => exact h
  | cons l ls ih =>
    exact ih (h.after hf.1 (hl l (by simp))) hf.2 fun m hm => hl m (.tail _ hm)

theorem cycleFree_of_run {it : Interner} {ps : List (TypeId × TypeId)}
    (h : Run (EachLeaf FreshLeaf) it ps σ) : CycleFree it.1 σ := by
  induction h with
  | new it =>
    refine ⟨fun v t h => by simp at h, ?_, ?_, fun v t h => by simp at h⟩
    · rw [trees_new]
      exact acyclic_none
    · rw [showns_new]
      exact resolving_none
  | @grow it it' ps σ _ hgrow ih =>
    refine ⟨fun v t hv => hgrow.has (ih.inRange v t hv), ?_, ?_, ?_⟩
    · rw [trees_grows it.2 hgrow ih.inRange]
      exact ih.acyclic
    · rw [showns_grows it.2 hgrow ih.inRange]
      exact ih.resolving
    · intro v t hv
      rw [tree_grows hgrow it.2 (ih.inRange v t hv)]
      exact ih.closed v t hv
  | @unify it ps σ σ' a b fuel _ ha hb hfresh hrun ih =>
    obtain ⟨rfl, _⟩ := unify_ok_leaves it ha hb hrun
    exact ih.afterAll hfresh (leavesN_has it.2 ha hb)

/-- In a run of fresh leaves no variable reaches itself through its bindings, and
`apply` and `occurs_in` end on every type. -/
theorem fresh_runs_stay_acyclic {it : Interner} {ps : List (TypeId × TypeId)} {σ : Subst}
    (h : Run (EachLeaf FreshLeaf) it ps σ) :
    Acyclic (σ.trees it.1) ∧
    (∀ t, it.1.Has t → ∃ fuel r, σ.apply fuel t it.1 = .ok r) ∧
    (∀ v t, it.1.Has t → ∃ fuel b, σ.occurs_in it.1 v fuel t = .ok b) := by
  have hc := cycleFree_of_run h
  refine ⟨hc.acyclic, ?_, ?_⟩
  · intro t ht
    obtain ⟨r, hr⟩ := hc.resolving (shown (tree it.1 t))
    obtain ⟨n, hn⟩ := (Subst.gives_of_resolves it.2 hc.inRange hr).1 t ht rfl
    obtain ⟨t', it₂, happ, _⟩ := hn n (le_refl n) it.1 it.2 (.refl _)
    exact ⟨n, _, happ⟩
  · intro v t ht
    refine ⟨t.index + it.1.types.length + 1, Subst.occurs_in_ends it.2 ?_ ht (Nat.lt_succ_self _)⟩
    intro u hu
    have hhas := hc.inRange v u hu
    exact ⟨hhas, hhas, hc.closed v u hu⟩

/-- `α` with `u64`: a fresh run. -/
theorem binding_to_u64_stays_acyclic : ∃ σ, Run (EachLeaf FreshLeaf) pairTypes [(⟨0⟩, ⟨1⟩)] σ ∧
    Acyclic (σ.trees pairTypes.1) := by
  have hrun : Run (EachLeaf FreshLeaf) pairTypes [(⟨0⟩, ⟨1⟩)]
      (Subst.new.insert ⟨1, by decide⟩ ⟨1⟩) := by
    refine .unify 1 (.new _) (by decide) (by decide) ⟨?_, trivial⟩ rfl
    intro v t hb
    cases hb
    refine ⟨?_, fun w h => h⟩
    rintro w _ (h | ⟨h, _, _⟩) <;> exact h
  exact ⟨_, hrun, (fresh_runs_stay_acyclic hrun).1⟩

/-- `α` and `β`. -/
def twoVars : Interner := ⟨⟨[.Var 1 .Star, .Var 2 .Star]⟩, by decide⟩

/-- `α` with `β` and then `β` with `α`: both calls go through, each variable is bound to
the other, and `apply` has no end. -/
theorem two_variables_close_a_cycle : ∃ σ,
    Run (fun _ _ _ => True) twoVars [(⟨0⟩, ⟨1⟩), (⟨1⟩, ⟨0⟩)] σ ∧ ¬ Acyclic (σ.trees twoVars.1) ∧
      ∀ fuel, σ.apply fuel ⟨0⟩ twoVars.1 = .error .div := by
  refine ⟨(Subst.new.insert ⟨1, by decide⟩ ⟨1⟩).insert ⟨2, by decide⟩ ⟨0⟩, ?_, ?_, ?_⟩
  · exact .unify 1 (.unify 1 (.new _) (by decide) (by decide) trivial rfl)
      (by decide) (by decide) trivial rfl
  · intro h
    refine h (1, .Star) (.var (2, .Star)) rfl ?_
    exact .there rfl rfl (.here rfl)
  · have hboth : ∀ fuel,
        ((Subst.new.insert ⟨1, by decide⟩ ⟨1⟩).insert ⟨2, by decide⟩ ⟨0⟩).apply fuel ⟨0⟩ twoVars.1 =
          .error .div ∧
        ((Subst.new.insert ⟨1, by decide⟩ ⟨1⟩).insert ⟨2, by decide⟩ ⟨0⟩).apply fuel ⟨1⟩ twoVars.1 =
          .error .div := by
      intro fuel
      induction fuel with
      | zero => exact ⟨rfl, rfl⟩
      | succ n ih => exact ⟨ih.2, ih.1⟩
    exact fun fuel => (hboth fuel).1

end paideia_as_types
