-- The substitution of the unifier. `apply` follows the bindings through
-- tuples, functions and named types, and gives the resolved type when the
-- bindings have an end. `occurs_in` has an end when no binding holds a
-- variable where it looks.
import PaideiaAs.Types.Interner

open FirstOrder

namespace paideia_as_types
open TypeInterner (has_iff intern_spec)

open Outcome (bind_eq_ok expect)

/-- `bindings` of the Rust code, a hash map, as the function of its lookups. -/
structure Subst where
  bindings : TyVar → Option TypeId

namespace Subst

def new : Subst := ⟨fun _ => none⟩

def get (σ : Subst) (v : TyVar) : Option TypeId := σ.bindings v

/-- A binding that was there already is overwritten. -/
def insert (σ : Subst) (v : TyVar) (t : TypeId) : Subst :=
  ⟨fun w => if w = v then some t else σ.bindings w⟩

@[simp] theorem get_new (v : TyVar) : new.get v = none := rfl

theorem get_insert (σ : Subst) (v w : TyVar) (t : TypeId) :
    (σ.insert v t).get w = if w = v then some t else σ.get w := rfl

/-- `iter().any(..)`: stops at the first hit. -/
def anyOf {α : Type} (f : α → Outcome Bool) : List α → Outcome Bool
  | [] => .ok false
  | x :: xs => do
    if ← f x then
      return true
    anyOf f xs

def occurs_in (σ : Subst) (it : TypeInterner) (v : TyVar) : Nat → TypeId → Outcome Bool
  | 0, _ => .error .div
  | n + 1, t => do
    match ← it.get t with
    | .Var name _ =>
      if name = v.num then
        return true
      -- the source looks up `v` here, and not the variable it met
      match σ.get v with
      | some target => occurs_in σ it v n target
      | none => return false
    | .Tuple xs => anyOf (occurs_in σ it v n) xs
    | .Fn params ret _ _ =>
      if ← anyOf (occurs_in σ it v n) params then
        return true
      occurs_in σ it v n ret
    | .Named _ args => anyOf (occurs_in σ it v n) args
    | _ => return false

/-- `interner.intern(ty)` on the interner that is passed along. -/
def internM (ty : Ty) : StateT TypeInterner Outcome TypeId :=
  fun it => .ok (it.intern ty)

def apply (σ : Subst) : Nat → TypeId → StateT TypeInterner Outcome TypeId
  | 0, _ => throw .div
  | n + 1, t => do
    match ← (← MonadState.get).get t with
    | .Var name _ =>
      let v ← expect (TyVar.new name)
      match σ.get v with
      | some target => apply σ n target
      | none => return t
    | .Tuple xs => do
      let new ← xs.mapM (apply σ n)
      internM (.Tuple new)
    | .Fn params ret effects caps => do
      let new_params ← params.mapM (apply σ n)
      let new_ret ← apply σ n ret
      internM (.Fn new_params new_ret effects caps)
    | .Named name args => do
      let new_args ← args.mapM (apply σ n)
      internM (.Named name new_args)
    | _ => return t

/-- Every binding names a type of the interner. -/
def InRange (σ : Subst) (it : TypeInterner) : Prop := ∀ v t, σ.get v = some t → it.Has t

/-- The bindings, with each type written out in full. -/
def trees (σ : Subst) (it : TypeInterner) : Bindings Head (Nat × HrKind) :=
  fun w => ((TyVar.new w.1).bind σ.get).map (tree it)

/-- The bindings, with each type as `apply` sees it. -/
def showns (σ : Subst) (it : TypeInterner) : Bindings Tree (Nat × HrKind) :=
  fun w => ((TyVar.new w.1).bind σ.get).map fun t => shown (tree it t)

/-! ## One step of `apply` -/

section

variable {σ : Subst} {it it' : TypeInterner} {t : TypeId} {ty : Ty} {n : Nat}
  {α : Type} {name : Nat} {v : TyVar} {h : Head} {cs : List TypeId} {w : Nat × HrKind}

theorem bind_run {β : Type} (m : StateT TypeInterner Outcome α)
    (f : α → StateT TypeInterner Outcome β) (it : TypeInterner) :
    (m >>= f) it = (m it >>= fun p => f p.1 p.2) := rfl

/-- A step begins with the look at the type. -/
theorem run_of_stored {f : Ty → StateT TypeInterner Outcome α} (ht : it.types[t.index]? = some ty) :
    ((do
      let stored : TypeInterner ← MonadState.get
      let ty ← stored.get t
      f ty) : StateT TypeInterner Outcome α) it = f ty it := by
  have hget : it.get t = .ok ty := congrArg expect ht
  change ((it.get t >>= fun ty => pure (ty, it)) >>= fun p => f p.1 p.2) = f ty it
  rw [hget]
  rfl

theorem run_of_var {f : TyVar → StateT TypeInterner Outcome α} (hn : TyVar.new name = some v) : ((do
      let v ← expect (TyVar.new name)
      f v) : StateT TypeInterner Outcome α) it = f v it := by
  rw [hn]
  rfl

theorem apply_unbound {k : HrKind} (ht : it.types[t.index]? = some (.Var name k))
    (hn : TyVar.new name = some v)
    (hv : σ.get v = none) : apply σ (n + 1) t it = .ok (t, it) := by
  simp only [apply, run_of_stored ht, run_of_var hn, hv]
  rfl

theorem apply_bound {k : HrKind} {u : TypeId}
    (ht : it.types[t.index]? = some (.Var name k)) (hn : TyVar.new name = some v)
    (hv : σ.get v = some u) : apply σ (n + 1) t it = apply σ n u it := by
  rw [apply, run_of_stored ht]
  dsimp only
  rw [run_of_var hn, hv]

theorem apply_opaque (ht : it.types[t.index]? = some ty)
    (hv : ty.view = .node h cs) (hw : walked h = false) : apply σ (n + 1) t it = .ok (t, it) := by
  rw [apply, run_of_stored ht]
  cases ty
  case Var => cases hv
  case Tuple | Named | Fn =>
    cases hv
    cases hw
  all_goals rfl

theorem mapM_append_ok {ds : List TypeId} {xs : List TypeId}
    {f : TypeId → StateT TypeInterner Outcome TypeId} :
    (cs ++ ds).mapM f it = .ok (xs, it') ↔ ∃ as it₁ bs, cs.mapM f it = .ok (as, it₁) ∧
      ds.mapM f it₁ = .ok (bs, it') ∧ xs = as ++ bs := by
  rw [List.mapM_append]
  simp only [bind_run, bind_eq_ok, Prod.exists]
  constructor
  · rintro ⟨as, it₁, ha, bs, it₂, hb, hr⟩
    cases hr
    exact ⟨as, it₁, bs, ha, hb, rfl⟩
  · rintro ⟨as, it₁, bs, ha, hb, rfl⟩
    exact ⟨as, it₁, ha, bs, it', hb, rfl⟩

theorem mapM_singleton_ok {c : TypeId} {xs : List TypeId}
    {f : TypeId → StateT TypeInterner Outcome TypeId} :
    [c].mapM f it = .ok (xs, it') ↔ ∃ x, f c it = .ok (x, it') ∧ xs = [x] := by
  simp only [List.mapM_cons, List.mapM_nil, bind_run, bind_eq_ok, Prod.exists]
  constructor
  · rintro ⟨x, it₁, hx, bs, it₂, hb, hr⟩
    cases hb
    cases hr
    exact ⟨x, hx, rfl⟩
  · rintro ⟨x, hx, rfl⟩
    exact ⟨x, it', hx, [], it', rfl, rfl⟩

/-- A walked type is interned again over the parts that `apply` gave. -/
theorem apply_walked {new : List TypeId} (ht : it.types[t.index]? = some ty)
    (hv : ty.view = .node h cs) (hw : walked h = true)
    (hm : cs.mapM (apply σ n) it = .ok (new, it')) (hlen : new.length = cs.length) :
    ∃ ty', ty'.view = .node h new ∧ apply σ (n + 1) t it = .ok (it'.intern ty') := by
  rw [apply, run_of_stored ht]
  cases ty
  case Tuple xs =>
    cases hv
    refine ⟨.Tuple new, by simp [Ty.view, hlen], ?_⟩
    dsimp only
    rw [bind_run, hm]
    rfl
  case Named name args =>
    cases hv
    refine ⟨.Named name new, by simp [Ty.view, hlen], ?_⟩
    dsimp only
    rw [bind_run, hm]
    rfl
  case Fn params ret effects caps =>
    cases hv
    obtain ⟨ps, it₁, rs, hp, hr, rfl⟩ := mapM_append_ok.mp hm
    obtain ⟨r, hret, rfl⟩ := mapM_singleton_ok.mp hr
    refine ⟨.Fn ps r effects caps, ?_, ?_⟩
    · have : ps.length = params.length := by simpa using hlen
      simp [Ty.view, this]
    · dsimp only
      rw [bind_run, hp]
      change (apply σ n ret it₁ >>= _) = _
      rw [hret]
      rfl
  all_goals cases hv
  all_goals cases hw

/-! ## What `apply` gives -/

theorem showns_eq_none (hw : TyVar.new w.1 = some v) : σ.showns it w = none ↔ σ.get v = none := by
  simp [showns, hw]

theorem showns_eq_some (hw : TyVar.new w.1 = some v) {x : Shown} :
    σ.showns it w = some x ↔ ∃ t, σ.get v = some t ∧ shown (tree it t) = x := by
  simp [showns, hw]

/-- `apply` on `t` gives a type that is shown as `r`, from every interner that
`it` grew to and with every fuel from some number on. -/
def Gives (σ : Subst) (it : TypeInterner) (t : TypeId) (r : Shown) : Prop :=
  ∃ n, ∀ m ≥ n, ∀ it₁ : TypeInterner, it₁.Good → it.Grows it₁ →
    ∃ t' it₂, apply σ m t it₁ = .ok (t', it₂) ∧ it₂.Good ∧ it₁.Grows it₂ ∧ it₂.Has t' ∧
      shown (tree it₂ t') = r

def GivesAll (σ : Subst) (it : TypeInterner) (ts : List TypeId) (rs : List Shown) : Prop :=
  ∃ n, ∀ m ≥ n, ∀ it₁ : TypeInterner, it₁.Good → it.Grows it₁ →
    ∃ ts' it₂, ts.mapM (apply σ m) it₁ = .ok (ts', it₂) ∧ it₂.Good ∧ it₁.Grows it₂ ∧
      (∀ t' ∈ ts', it₂.Has t') ∧ ts'.map (fun t' => shown (tree it₂ t')) = rs

theorem GivesAll.nil : GivesAll σ it [] [] := by
  refine ⟨0, fun m _ it₁ hg _ => ⟨[], it₁, rfl, hg, TypeInterner.Grows.refl it₁, ?_, rfl⟩⟩
  simp

theorem GivesAll.concat {ts : List TypeId} {rs : List Shown} {r : Shown}
    (hs : GivesAll σ it ts rs) (ht : Gives σ it t r) : GivesAll σ it (ts ++ [t]) (rs ++ [r]) := by
  obtain ⟨n, hn⟩ := hs
  obtain ⟨k, hk⟩ := ht
  refine ⟨max n k, fun m hm it₁ hg hgr => ?_⟩
  obtain ⟨ts', it₂, h1, g2, gr2, has2, rfl⟩ := hn m (by omega) it₁ hg hgr
  obtain ⟨t', it₃, h3, g3, gr3, has3, rfl⟩ := hk m (by omega) it₂ g2 (hgr.trans gr2)
  refine ⟨ts' ++ [t'], it₃, ?_, g3, gr2.trans gr3, ?_, ?_⟩
  · exact mapM_append_ok.mpr ⟨ts', it₂, [t'], h1, mapM_singleton_ok.mpr ⟨t', h3, rfl⟩, rfl⟩
  · intro x hx
    rcases List.mem_append.mp hx with hx | hx
    · exact gr3.has (has2 x hx)
    · rwa [List.mem_singleton.mp hx]
  · rw [List.map_append, List.map_singleton]
    congr 1
    apply List.map_congr_left
    intro x hx
    rw [tree_grows gr3 g2 (has2 x hx)]

theorem GivesAll.node {rs : List Shown}
    (ht : it.types[t.index]? = some ty) (hv : ty.view = .node h cs) (hw : walked h = true)
    (hl : rs.length = cs.length) (hs : GivesAll σ it cs rs) :
    Gives σ it t ((Term.con (Term.con h)).apps rs) := by
  obtain ⟨n, hn⟩ := hs
  refine ⟨n + 1, fun m hm it₁ hg hgr => ?_⟩
  obtain ⟨m, rfl⟩ : ∃ k, m = k + 1 := ⟨m - 1, by omega⟩
  obtain ⟨ts', it₂, h1, g2, gr2, has2, rfl⟩ := hn m (by omega) it₁ hg hgr
  obtain ⟨ty', hv', happ⟩ := apply_walked (hgr.lookup ht) hv hw h1 (by simpa using hl)
  have hc : ∀ c ∈ ty'.children, it₂.Has c := by simpa [Ty.children, hv'] using has2
  obtain ⟨g3, gr3, hget⟩ := intern_spec g2 hc (by simp [hv'])
  refine ⟨(it₂.intern ty').1, (it₂.intern ty').2, happ, g3, gr2.trans gr3, has_iff.mpr ⟨ty', hget⟩, ?_⟩
  rw [tree_node g3 hget hv', shown_apps_walked (by simpa [spine] using hw)]
  simp only [shown, List.map_map]
  congr 1
  apply List.map_congr_left
  intro x hx
  simp [tree_grows gr3 g2 (has2 x hx)]

/-- The three ways in which an interned type is shown. -/
theorem shown_cases (hg : it.Good) (ht : it.types[t.index]? = some ty) :
    (∃ n k, ty = .Var n k ∧ shown (tree it t) = .var (n, k)) ∨
    (∃ h cs, ty.view = .node h cs ∧ walked h = true ∧
      shown (tree it t) = (Term.con (Term.con h)).apps (cs.map fun c => shown (tree it c))) ∨
    (∃ h cs, ty.view = .node h cs ∧ walked h = false ∧
      shown (tree it t) = .con ((Term.con h).apps (cs.map (tree it)))) := by
  cases hv : ty.view with
  | var n k =>
    left
    refine ⟨n, k, ?_, by rw [tree_var hg ht hv, shown]⟩
    cases ty <;> simp_all [Ty.view]
  | node h cs =>
    right
    rw [tree_node hg ht hv]
    cases hw : walked h with
    | true =>
      refine .inl ⟨h, cs, rfl, hw, ?_⟩
      rw [shown_apps_walked (by simpa [spine] using hw)]
      simp [shown, Function.comp_def]
    | false => exact .inr ⟨h, cs, rfl, hw, shown_apps_opaque hw _⟩

theorem var_ne_apps {l : Tree} {xs : List Shown} : (Term.var w : Shown) ≠ (Term.con l).apps xs := by
  rcases List.eq_nil_or_concat xs with rfl | ⟨ys, y, rfl⟩
  · simp
  · simp [Term.apps]

theorem con_eq_apps {l m : Tree} {xs : List Shown} (h : (Term.con l : Shown) = (Term.con m).apps xs) :
    l = m ∧ xs = [] := by
  rcases List.eq_nil_or_concat xs with rfl | ⟨ys, y, rfl⟩
  · simpa using h
  · simp [Term.apps] at h

theorem var_of_shown (hg : it.Good) (ht : it.Has t) (hx : shown (tree it t) = .var w) :
    it.types[t.index]? = some (.Var w.1 w.2) ∧ ∃ v, TyVar.new w.1 = some v := by
  obtain ⟨ty, hty⟩ := has_iff.mp ht
  rcases shown_cases hg hty with ⟨n, k, rfl, h⟩ | ⟨h, cs, _, _, hs⟩ | ⟨h, cs, _, _, hs⟩
  · rw [h, Term.var.injEq] at hx
    subst hx
    have hpos := hg.named _ (List.mem_of_getElem? hty) n k rfl
    exact ⟨hty, ⟨n, hpos⟩, by simp [TyVar.new, hpos]⟩
  · exact absurd (hs ▸ hx).symm var_ne_apps
  · simp [hs] at hx

/-- What the bindings resolve to is what `apply` gives. The second half is the
same for the parts of a walked type, which `apply` takes from left to right. -/
theorem gives_of_resolves (hg : it.Good) (hr : σ.InRange it) {x r : Shown}
    (h : Resolves (σ.showns it) x r) :
    (∀ t, it.Has t → shown (tree it t) = x → Gives σ it t r) ∧
    (∀ hd cs, (∀ c ∈ cs, it.Has c) →
      x = (Term.con hd).apps (cs.map fun c => shown (tree it c)) →
      ∃ rs, rs.length = cs.length ∧ r = (Term.con hd).apps rs ∧ GivesAll σ it cs rs) := by
  induction h with
  | @unbound w hw =>
    refine ⟨?_, fun hd cs _ hx => absurd hx var_ne_apps⟩
    intro t ht hx
    obtain ⟨hty, v, hnew⟩ := var_of_shown hg ht hx
    have hnone := (showns_eq_none hnew).mp hw
    refine ⟨1, fun m hm it₁ g₁ gr₁ => ?_⟩
    obtain ⟨m, rfl⟩ : ∃ k, m = k + 1 := ⟨m - 1, by omega⟩
    refine ⟨t, it₁, apply_unbound (gr₁.lookup hty) hnew hnone, g₁, .refl it₁, gr₁.has ht, ?_⟩
    rw [tree_grows gr₁ hg ht, hx]
  | @bound w x r hw _ ih =>
    refine ⟨?_, fun hd cs _ hx => absurd hx var_ne_apps⟩
    intro t ht hx
    obtain ⟨hty, v, hnew⟩ := var_of_shown hg ht hx
    obtain ⟨u, hu, hxu⟩ := (showns_eq_some hnew).mp hw
    obtain ⟨n, hn⟩ := ih.1 u (hr v u hu) hxu
    refine ⟨n + 1, fun m hm it₁ g₁ gr₁ => ?_⟩
    obtain ⟨m, rfl⟩ : ∃ k, m = k + 1 := ⟨m - 1, by omega⟩
    rw [apply_bound (gr₁.lookup hty) hnew hu]
    exact hn m (by omega) it₁ g₁ gr₁
  | con l =>
    refine ⟨?_, ?_⟩
    · intro t ht hx
      obtain ⟨ty, hty⟩ := has_iff.mp ht
      rcases shown_cases hg hty with ⟨n, k, _, h⟩ | ⟨h, cs, hv, hw, hs⟩ | ⟨h, cs, hv, hw, hs⟩
      · simp [h] at hx
      · obtain ⟨rfl, hcs⟩ := con_eq_apps (hs ▸ hx).symm
        have hnil : cs = [] := by simpa using hcs
        subst hnil
        exact GivesAll.nil.node hty hv hw rfl
      · refine ⟨1, fun m hm it₁ g₁ gr₁ => ?_⟩
        obtain ⟨m, rfl⟩ : ∃ k, m = k + 1 := ⟨m - 1, by omega⟩
        refine ⟨t, it₁, apply_opaque (gr₁.lookup hty) hv hw, g₁, .refl it₁, gr₁.has ht, ?_⟩
        rw [tree_grows gr₁ hg ht, hx]
    · intro hd cs _ hx
      obtain ⟨rfl, hcs⟩ := con_eq_apps hx
      have hnil : cs = [] := by simpa using hcs
      subst hnil
      exact ⟨[], rfl, rfl, GivesAll.nil⟩
  | @app f y f' y' _ _ ihf ihy =>
    have hparts : ∀ hd cs, (∀ c ∈ cs, it.Has c) →
        Term.app f y = (Term.con hd).apps (cs.map fun c => shown (tree it c)) →
        ∃ rs, rs.length = cs.length ∧ Term.app f' y' = (Term.con hd).apps rs ∧
          GivesAll σ it cs rs := by
      intro hd cs hcs hx
      rcases List.eq_nil_or_concat cs with rfl | ⟨ds, c, rfl⟩
      · simp at hx
      · simp only [List.concat_eq_append] at hcs hx ⊢
        rw [List.map_append, List.map_singleton, Term.apps_concat, Term.app.injEq] at hx
        obtain ⟨rs, hl, rfl, hrs⟩ := ihf.2 hd ds (fun d hd => hcs d (by simp [hd])) hx.1
        have hy := ihy.1 c (hcs c (by simp)) hx.2.symm
        exact ⟨rs ++ [y'], by simp [hl], by rw [Term.apps_concat], hrs.concat hy⟩
    refine ⟨?_, hparts⟩
    intro t ht hx
    obtain ⟨ty, hty⟩ := has_iff.mp ht
    rcases shown_cases hg hty with ⟨n, k, _, h⟩ | ⟨h, cs, hv, hw, hs⟩ | ⟨h, cs, hv, hw, hs⟩
    · simp [h] at hx
    · have hc : ∀ c ∈ cs, it.Has c := by
        intro c hc
        exact hg.child_has hty (by simpa [Ty.children, hv] using hc)
      obtain ⟨rs, hl, heq, hrs⟩ := hparts _ cs hc (hx.symm.trans hs)
      rw [heq]
      exact hrs.node hty hv hw hl
    · simp [hs] at hx

end

/-! ## What `occurs_in` gives -/

section

variable {α : Type} {σ : Subst} {it : TypeInterner} {t : TypeId} {ty : Ty} {v : TyVar} {n : Nat}
  {f : α → Outcome Bool} {h : Head} {cs : List TypeId}

theorem anyOf_ok {xs : List α} (h : ∀ x ∈ xs, ∃ b, f x = .ok b) : ∃ b, anyOf f xs = .ok b := by
  induction xs with
  | nil => exact ⟨false, rfl⟩
  | cons x xs ih =>
    obtain ⟨b, hb⟩ := h x (by simp)
    obtain ⟨c, hc⟩ := ih fun y hy => h y (by simp [hy])
    cases b with
    | true => exact ⟨true, by simp [anyOf, hb, pure, Except.pure]⟩
    | false => exact ⟨c, by simp [anyOf, hb, hc]⟩

theorem anyOf_false {xs : List α} (h : ∀ x ∈ xs, f x = .ok false) : anyOf f xs = .ok false := by
  induction xs with
  | nil => rfl
  | cons x xs ih => simp [anyOf, h x, ih fun y hy => h y (by simp [hy])]

theorem anyOf_append (xs : List α) (y : α) :
    anyOf f (xs ++ [y]) = (anyOf f xs >>= fun b => if b then pure true else f y) := by
  induction xs with
  | nil =>
    cases hy : f y with
    | error e => simp [anyOf, hy]
    | ok b => cases b <;> simp [anyOf, hy, pure, Except.pure]
  | cons x xs ih =>
    simp only [List.cons_append, anyOf, ih]
    cases hx : f x with
    | error e => simp
    | ok b => cases b <;> simp [pure, Except.pure]

theorem occurs_in_walked (ht : it.types[t.index]? = some ty)
    (hv : ty.view = .node h cs) (hw : walked h = true) :
    occurs_in σ it v (n + 1) t = anyOf (occurs_in σ it v n) cs := by
  rw [occurs_in, show it.get t = .ok ty from congrArg expect ht]
  cases ty
  case Tuple | Named =>
    cases hv
    rfl
  case Fn params ret effects caps =>
    cases hv
    rw [anyOf_append]
    rfl
  all_goals cases hv
  all_goals cases hw

theorem occurs_in_opaque (ht : it.types[t.index]? = some ty)
    (hv : ty.view = .node h cs) (hw : walked h = false) :
    occurs_in σ it v (n + 1) t = .ok false := by
  rw [occurs_in, show it.get t = .ok ty from congrArg expect ht]
  cases ty
  case Var => cases hv
  case Tuple | Named | Fn =>
    cases hv
    cases hw
  all_goals rfl

theorem mem_shown_child {w : Nat × HrKind} {c : TypeId}
    (hs : shown (tree it t) = (Term.con (Term.con h)).apps (cs.map fun c => shown (tree it c)))
    (hc : c ∈ cs) (hm : Term.Mem w (shown (tree it c))) : Term.Mem w (shown (tree it t)) := by
  rw [hs, Term.mem_apps]
  exact .inr ⟨_, List.mem_map.mpr ⟨c, hc, rfl⟩, hm⟩

/-- A type with no variable in sight is walked to its end. -/
theorem occurs_in_closed (hg : it.Good) (ht : it.Has t) (hn : t.index < n)
    (h : ∀ w, ¬ Term.Mem w (shown (tree it t))) : occurs_in σ it v n t = .ok false := by
  induction n generalizing t with
  | zero => omega
  | succ n ih =>
    obtain ⟨ty, hty⟩ := has_iff.mp ht
    rcases shown_cases hg hty with ⟨m, k, _, hs⟩ | ⟨hd, cs, hv, hw, hs⟩ | ⟨hd, cs, hv, hw, hs⟩
    · exact absurd (by simp [hs]) (h (m, k))
    · rw [occurs_in_walked hty hv hw]
      apply anyOf_false
      intro c hc
      have hmem : c ∈ ty.children := by simpa [Ty.children, hv] using hc
      have hlt := hg.child_lt hty hmem
      exact ih (hg.child_has hty hmem) (by omega) fun w hm => h w (mem_shown_child hs hc hm)
    · exact occurs_in_opaque hty hv hw

/-- The look for a variable ends when its own binding has no variable in sight. -/
theorem occurs_in_ends {k : Nat} (hg : it.Good)
    (hb : ∀ u, σ.get v = some u → it.Has u ∧ u.index < k ∧ ∀ w, ¬ Term.Mem w (shown (tree it u)))
    (ht : it.Has t) (hn : t.index + k < n) : ∃ b, occurs_in σ it v n t = .ok b := by
  induction n generalizing t with
  | zero => omega
  | succ n ih =>
    obtain ⟨ty, hty⟩ := has_iff.mp ht
    rcases shown_cases hg hty with ⟨m, kd, rfl, hs⟩ | ⟨hd, cs, hv, hw, hs⟩ | ⟨hd, cs, hv, hw, hs⟩
    · cases hu : σ.get v with
      | none =>
        by_cases hm : m = v.num <;>
          simp [occurs_in, TypeInterner.get, hty, hu, hm, pure, Except.pure]
      | some u =>
        obtain ⟨hhas, hlt, hclosed⟩ := hb u hu
        have := occurs_in_closed (σ := σ) (v := v) hg hhas (show u.index < n by omega) hclosed
        by_cases hm : m = v.num <;>
          simp [occurs_in, TypeInterner.get, hty, hu, hm, this, pure, Except.pure]
    · rw [occurs_in_walked hty hv hw]
      apply anyOf_ok
      intro c hc
      have hmem : c ∈ ty.children := by simpa [Ty.children, hv] using hc
      have hlt := hg.child_lt hty hmem
      exact ih (hg.child_has hty hmem) (by omega)
    · exact ⟨false, occurs_in_opaque hty hv hw⟩

end

end Subst

end paideia_as_types
