-- Unification of two interned types. A call of `unify` goes through the two
-- types side by side and does one thing at each place where they come to an
-- end: it binds a variable, or it fails. `leaves` lists these places, and a
-- call is the run over that list.
import PaideiaAs.Types.Subst

open FirstOrder

namespace paideia_as_types

open List (flatMap_cons forM_cons forM_eq_forM forM_map mem_append_left mem_cons mem_flatMap
  mem_map of_mem_zip)

/-! ## The Rust functions -/

/-- A text of an error: written out, or the `Debug` form of a value. -/
inductive Text where
  | lit (s : String)
  | debugType (ty : Ty)
  | debugPayload (p : EnumPayload)
  | varWithKind (name : Nat) (kind : HrKind)
  deriving DecidableEq

inductive UnifyError where
  | KindMismatch (a b : Text)
  | OccursCheck (var : TyVar) (ty : Text)
  | ArityMismatch
  deriving DecidableEq

/-- `unify` changes the substitution in place, also when it fails. -/
abbrev UnifyM := ExceptT UnifyError (StateT Subst Outcome)

/-- Part of the Rust code that cannot fail with a `UnifyError`. -/
def lift {α : Type} (x : Outcome α) : UnifyM α := ExceptT.mk fun σ => x.map fun a => (.ok a, σ)

def getSubst : UnifyM Subst := ExceptT.mk fun σ => .ok (.ok σ, σ)

def insertM (v : TyVar) (t : TypeId) : UnifyM Unit :=
  ExceptT.mk fun σ => .ok (.ok (), σ.insert v t)

/-- `bind`, with `fuel` for the occurs check. -/
def unify.bind (it : TypeInterner) (fuel : Nat) (var_name : Nat) (var_kind : HrKind)
    (t_id : TypeId) (t_view : Ty) : UnifyM Unit := do
  if let .Var other_name other_kind := t_view then
    if other_name = var_name then
      return
    if var_kind ≠ other_kind then
      throw (.KindMismatch (.varWithKind var_name var_kind) (.varWithKind other_name other_kind))
  let v ← lift (Outcome.expect (TyVar.new var_name))
  if ← lift ((← getSubst).occurs_in it v fuel t_id) then
    throw (.OccursCheck v (.debugType t_view))
  insertM v t_id

/-- `for (x, y) in xs.iter().zip(ys) { unify(x, y)? }` -/
def unifyZip (rec : TypeId → TypeId → UnifyM Unit) (xs ys : List TypeId) : UnifyM Unit :=
  (xs.zip ys).forM fun p => rec p.1 p.2

/-- The same for named fields, where `what` says what the names name. -/
def unifyFields (rec : TypeId → TypeId → UnifyM Unit) (what : String)
    (f1 f2 : List (Nat × TypeId)) : UnifyM Unit :=
  (f1.zip f2).forM fun p => do
    if p.1.1 ≠ p.2.1 then
      throw (.KindMismatch (.lit (what ++ toString p.1.1)) (.lit (what ++ toString p.2.1)))
    rec p.1.2 p.2.2

def unify_payload (rec : TypeId → TypeId → UnifyM Unit) : EnumPayload → EnumPayload → UnifyM Unit
  | .Unit, .Unit => return
  | .Tuple t1, .Tuple t2 => do
    if t1.length ≠ t2.length then
      throw .ArityMismatch
    unifyZip rec t1 t2
  | .Record f1, .Record f2 => do
    if f1.length ≠ f2.length then
      throw .ArityMismatch
    unifyFields rec "record field with symbol " f1 f2
  | p1, p2 => throw (.KindMismatch (.debugPayload p1) (.debugPayload p2))

def pointerText (sigil : String) (mutable : Bool) : Text :=
  .lit (sigil ++ if mutable then "mut " else "")

/-- The `match` of `unify` on the two types of `a` and `b`. The occurs check has
`fuel`, and `rec` is the call on two parts. -/
def unifyTypes (it : TypeInterner) (fuel : Nat) (rec : TypeId → TypeId → UnifyM Unit)
    (a b : TypeId) : Ty → Ty → UnifyM Unit
  | .Var name kind, other => unify.bind it fuel name kind b other
  | other, .Var name kind => unify.bind it fuel name kind a other
  | .Unit, .Unit | .Bool, .Bool | .Char, .Char | .Top, .Top | .Bot, .Bot | .Term, .Term => return
  | .UInt b1, .UInt b2 => do
    if b1 = b2 then
      return
    throw (.KindMismatch (.debugType (.UInt b1)) (.debugType (.UInt b2)))
  | .SInt b1, .SInt b2 => do
    if b1 = b2 then
      return
    throw (.KindMismatch (.debugType (.SInt b1)) (.debugType (.SInt b2)))
  | .Float b1, .Float b2 => do
    if b1 = b2 then
      return
    throw (.KindMismatch (.debugType (.Float b1)) (.debugType (.Float b2)))
  | .Tuple xs, .Tuple ys => do
    if xs.length ≠ ys.length then
      throw .ArityMismatch
    unifyZip rec xs ys
  | .Fn p1 r1 _ _, .Fn p2 r2 _ _ => do
    if p1.length ≠ p2.length then
      throw .ArityMismatch
    unifyZip rec p1 p2
    rec r1 r2
  | .Named n1 a1, .Named n2 a2 =>
    if n1 = n2 ∧ a1.length = a2.length then
      unifyZip rec a1 a2
    else
      throw (.KindMismatch (.debugType (.Named n1 a1)) (.debugType (.Named n2 a2)))
  | .Ptr p1 m1, .Ptr p2 m2 => do
    if m1 ≠ m2 then
      throw (.KindMismatch (pointerText "*" m1) (pointerText "*" m2))
    rec p1 p2
  | .Ref p1 m1 _, .Ref p2 m2 _ => do
    if m1 ≠ m2 then
      throw (.KindMismatch (pointerText "&" m1) (pointerText "&" m2))
    rec p1 p2
  | .Record f1, .Record f2 => do
    if f1.length ≠ f2.length then
      throw .ArityMismatch
    unifyFields rec "field with symbol " f1 f2
  | .Enum v1, .Enum v2 => do
    if v1.length ≠ v2.length then
      throw .ArityMismatch
    (v1.zip v2).forM fun p => do
      if p.1.1 ≠ p.2.1 then
        throw (.KindMismatch (.lit ("variant with symbol " ++ toString p.1.1))
          (.lit ("variant with symbol " ++ toString p.2.1)))
      unify_payload rec p.1.2 p.2.2
  | ta, tb => throw (.KindMismatch (.debugType ta) (.debugType tb))

/-- `unify` to depth `depth`. -/
def unifyN (it : TypeInterner) (fuel : Nat) : Nat → TypeId → TypeId → UnifyM Unit
  | 0, _, _ => lift (.error .div)
  | depth + 1, a, b => do
    let a_ty ← lift (it.get a)
    let b_ty ← lift (it.get b)
    unifyTypes it fuel (unifyN it fuel depth) a b a_ty b_ty

/-- `unify(interner, subst, a, b)`. The parts of a type come before it, so the
index of `a` bounds the depth; only the occurs check may have no end. -/
def unify (it : TypeInterner) (fuel : Nat) (a b : TypeId) : UnifyM Unit :=
  unifyN it fuel (a.index + 1) a b

/-! ## The places where two types come to an end -/

/-- What `unify` does at one place of two types that have a head each: it goes on
with two parts, or it fails. -/
inductive Part where
  | pair (x y : TypeId)
  | clash (e : UnifyError)
  deriving DecidableEq

def zipParts (xs ys : List TypeId) : List Part := (xs.zip ys).map fun p => .pair p.1 p.2

def fieldParts (what : String) (f1 f2 : List (Nat × TypeId)) : List Part :=
  (f1.zip f2).map fun p =>
    if p.1.1 = p.2.1 then .pair p.1.2 p.2.2
    else .clash (.KindMismatch (.lit (what ++ toString p.1.1)) (.lit (what ++ toString p.2.1)))

def payloadParts : EnumPayload → EnumPayload → List Part
  | .Unit, .Unit => []
  | .Tuple t1, .Tuple t2 =>
    if t1.length = t2.length then zipParts t1 t2 else [.clash .ArityMismatch]
  | .Record f1, .Record f2 =>
    if f1.length = f2.length then fieldParts "record field with symbol " f1 f2
    else [.clash .ArityMismatch]
  | p1, p2 => [.clash (.KindMismatch (.debugPayload p1) (.debugPayload p2))]

def variantParts (p q : Nat × EnumPayload) : List Part :=
  if p.1 = q.1 then payloadParts p.2 q.2
  else [.clash (.KindMismatch (.lit ("variant with symbol " ++ toString p.1))
    (.lit ("variant with symbol " ++ toString q.1)))]

/-- The parts of two types, neither of them a variable. -/
def parts : Ty → Ty → List Part
  | .Unit, .Unit | .Bool, .Bool | .Char, .Char | .Top, .Top | .Bot, .Bot | .Term, .Term => []
  | .UInt b1, .UInt b2 =>
    if b1 = b2 then [] else [.clash (.KindMismatch (.debugType (.UInt b1)) (.debugType (.UInt b2)))]
  | .SInt b1, .SInt b2 =>
    if b1 = b2 then [] else [.clash (.KindMismatch (.debugType (.SInt b1)) (.debugType (.SInt b2)))]
  | .Float b1, .Float b2 =>
    if b1 = b2 then []
    else [.clash (.KindMismatch (.debugType (.Float b1)) (.debugType (.Float b2)))]
  | .Tuple xs, .Tuple ys =>
    if xs.length = ys.length then zipParts xs ys else [.clash .ArityMismatch]
  | .Fn p1 r1 _ _, .Fn p2 r2 _ _ =>
    if p1.length = p2.length then zipParts p1 p2 ++ [.pair r1 r2] else [.clash .ArityMismatch]
  | .Named n1 a1, .Named n2 a2 =>
    if n1 = n2 ∧ a1.length = a2.length then zipParts a1 a2
    else [.clash (.KindMismatch (.debugType (.Named n1 a1)) (.debugType (.Named n2 a2)))]
  | .Ptr p1 m1, .Ptr p2 m2 =>
    if m1 = m2 then [.pair p1 p2]
    else [.clash (.KindMismatch (pointerText "*" m1) (pointerText "*" m2))]
  | .Ref p1 m1 _, .Ref p2 m2 _ =>
    if m1 = m2 then [.pair p1 p2]
    else [.clash (.KindMismatch (pointerText "&" m1) (pointerText "&" m2))]
  | .Record f1, .Record f2 =>
    if f1.length = f2.length then fieldParts "field with symbol " f1 f2
    else [.clash .ArityMismatch]
  | .Enum v1, .Enum v2 =>
    if v1.length = v2.length then (v1.zip v2).flatMap fun p => variantParts p.1 p.2
    else [.clash .ArityMismatch]
  | ta, tb => [.clash (.KindMismatch (.debugType ta) (.debugType tb))]

def runPart (rec : TypeId → TypeId → UnifyM Unit) : Part → UnifyM Unit
  | .pair x y => rec x y
  | .clash e => throw e

section

variable {rec : TypeId → TypeId → UnifyM Unit} {it : TypeInterner} {fuel : Nat} {a b : TypeId}

theorem unifyZip_eq (xs ys : List TypeId) :
    unifyZip rec xs ys = (zipParts xs ys).forM (runPart rec) := by
  unfold unifyZip zipParts
  rw [forM_eq_forM, forM_eq_forM, forM_map]
  rfl

theorem unifyFields_eq (what : String) (f1 f2 : List (Nat × TypeId)) :
    unifyFields rec what f1 f2 = (fieldParts what f1 f2).forM (runPart rec) := by
  unfold unifyFields fieldParts
  rw [forM_eq_forM, forM_eq_forM, forM_map]
  congr 1
  funext p
  by_cases h : p.1.1 = p.2.1 <;> simp [h, runPart]

theorem clash_forM (e : UnifyError) : [Part.clash e].forM (runPart rec) = throw e := rfl

theorem unify_payload_eq (p q : EnumPayload) :
    unify_payload rec p q = (payloadParts p q).forM (runPart rec) := by
  cases p <;> cases q <;> simp only [unify_payload, payloadParts] <;> try rfl
  case Tuple.Tuple xs ys =>
    by_cases h : xs.length = ys.length
    · simp [h, unifyZip_eq]
    · simp [h, clash_forM]
  case Record.Record xs ys =>
    by_cases h : xs.length = ys.length
    · simp [h, unifyFields_eq]
    · simp [h, clash_forM]

theorem unifyVariants_eq (v1 v2 : List (Nat × EnumPayload)) : ((v1.zip v2).forM fun p => do
      if p.1.1 ≠ p.2.1 then
        throw (.KindMismatch (.lit ("variant with symbol " ++ toString p.1.1))
          (.lit ("variant with symbol " ++ toString p.2.1)))
      unify_payload rec p.1.2 p.2.2) =
    ((v1.zip v2).flatMap fun p => variantParts p.1 p.2).forM (runPart rec) := by
  induction v1.zip v2 with
  | nil => rfl
  | cons p ps ih =>
    simp only [forM_eq_forM] at ih
    simp only [forM_eq_forM, forM_cons, flatMap_cons, List.forM_append, ih]
    congr 1
    by_cases h : p.1.1 = p.2.1
    · simp [variantParts, h, unify_payload_eq]
    · simp [variantParts, h, runPart]

/-- On two types with a head each, `unify` runs over their parts. -/
theorem unifyTypes_eq (ta tb : Ty) (ha : ∀ n k, ta.view ≠ .var n k)
    (hb : ∀ n k, tb.view ≠ .var n k) :
    unifyTypes it fuel rec a b ta tb = (parts ta tb).forM (runPart rec) := by
  cases ta <;> cases tb <;> first
    | rfl
    | exact absurd rfl (ha _ _)
    | exact absurd rfl (hb _ _)
    | simp only [unifyTypes, parts]
  case UInt.UInt m n => by_cases h : m = n <;> simp [h, runPart]
  case SInt.SInt m n => by_cases h : m = n <;> simp [h, runPart]
  case Float.Float m n => by_cases h : m = n <;> simp [h, runPart]
  case Fn.Fn ps r _ _ qs s _ _ =>
    by_cases h : ps.length = qs.length
    · simp [h, unifyZip_eq, runPart]
    · simp [h, runPart]
  case Tuple.Tuple xs ys => by_cases h : xs.length = ys.length <;> simp [h, unifyZip_eq, runPart]
  case Named.Named m xs n ys =>
    by_cases h : m = n ∧ xs.length = ys.length
    · simp [h, unifyZip_eq]
    · simp [h, runPart]
  case Ptr.Ptr p m q n => by_cases h : m = n <;> simp [h, runPart]
  case Ref.Ref p m _ q n _ => by_cases h : m = n <;> simp [h, runPart]
  case Record.Record fs gs =>
    by_cases h : fs.length = gs.length <;> simp [h, unifyFields_eq, runPart]
  case Enum.Enum vs ws =>
    rw [unifyVariants_eq]
    by_cases h : vs.length = ws.length <;> simp [h, runPart]

/-- No part fails. -/
def Clashless (ps : List Part) : Prop := ∀ e, Part.clash e ∉ ps

theorem not_clashless_clash {e : UnifyError} : ¬ Clashless [.clash e] := fun h => h e (by simp)

theorem zipParts_append {xs ys zs ws : List TypeId} (h : xs.length = ys.length) :
    zipParts xs ys ++ zipParts zs ws = zipParts (xs ++ zs) (ys ++ ws) := by
  simp [zipParts, List.zip_append h]

theorem fieldParts_clashless {what : String} {f1 f2 : List (Nat × TypeId)}
    (hl : f1.length = f2.length) (h : Clashless (fieldParts what f1 f2)) :
    f1.map (·.1) = f2.map (·.1) ∧
      fieldParts what f1 f2 = zipParts (f1.map (·.2)) (f2.map (·.2)) := by
  induction f1 generalizing f2 with
  | nil =>
    cases f2 with
    | nil => exact ⟨rfl, rfl⟩
    | cons q f2 => simp at hl
  | cons p f1 ih =>
    cases f2 with
    | nil => simp at hl
    | cons q f2 =>
      have hpq : p.1 = q.1 := by
        by_contra hne
        exact h (.KindMismatch (.lit (what ++ toString p.1)) (.lit (what ++ toString q.1)))
          (by simp [fieldParts, hne])
      have htail : Clashless (fieldParts what f1 f2) :=
        fun e he => h e (.tail _ he)
      obtain ⟨hn, hp⟩ := ih (by simpa using hl) htail
      refine ⟨by simp [hpq, hn], ?_⟩
      have hstep : fieldParts what (p :: f1) (q :: f2) = .pair p.2 q.2 :: fieldParts what f1 f2 := by
        simp [fieldParts, hpq]
      rw [hstep, hp]
      simp [zipParts]

theorem payloadParts_clashless {p q : EnumPayload} (h : Clashless (payloadParts p q)) :
    p.head = q.head ∧ p.children.length = q.children.length ∧
      payloadParts p q = zipParts p.children q.children := by
  cases p <;> cases q <;> simp only [payloadParts] at h ⊢ <;>
    first | exact absurd h not_clashless_clash | skip
  case Unit.Unit => simp [EnumPayload.children, zipParts]
  case Tuple.Tuple xs ys =>
    by_cases hl : xs.length = ys.length
    · simp [hl, EnumPayload.head, EnumPayload.children]
    · simp [hl, not_clashless_clash] at h
  case Record.Record fs gs =>
    by_cases hl : fs.length = gs.length
    · simp only [hl, if_true] at h ⊢
      obtain ⟨hn, hp⟩ := fieldParts_clashless hl h
      exact ⟨by simp [EnumPayload.head, hn], by simp [EnumPayload.children, hl], hp⟩
    · simp [hl, not_clashless_clash] at h

theorem variantParts_clashless {v1 v2 : List (Nat × EnumPayload)} (hl : v1.length = v2.length)
    (h : Clashless ((v1.zip v2).flatMap fun p => variantParts p.1 p.2)) :
    v1.map (fun v => (v.1, v.2.head)) = v2.map (fun v => (v.1, v.2.head)) ∧
      (v1.flatMap fun v => v.2.children).length = (v2.flatMap fun v => v.2.children).length ∧
      ((v1.zip v2).flatMap fun p => variantParts p.1 p.2) =
        zipParts (v1.flatMap fun v => v.2.children) (v2.flatMap fun v => v.2.children) := by
  induction v1 generalizing v2 with
  | nil =>
    cases v2 with
    | nil => exact ⟨rfl, rfl, rfl⟩
    | cons q v2 => simp at hl
  | cons p v1 ih =>
    cases v2 with
    | nil => simp at hl
    | cons q v2 =>
      simp only [List.zip_cons_cons, flatMap_cons] at h ⊢
      have hpq : p.1 = q.1 := by
        by_contra hne
        exact h _ (mem_append_left _ (by simp [variantParts, hne]; rfl))
      have hhead : Clashless (payloadParts p.2 q.2) := by
        intro e he
        exact h e (mem_append_left _ (by simpa [variantParts, hpq] using he))
      obtain ⟨hp1, hp2, hp3⟩ := payloadParts_clashless hhead
      obtain ⟨hn, hlen, hz⟩ := ih (by simpa using hl) fun e he => h e (List.mem_append_right _ he)
      refine ⟨by simp [hpq, hp1, hn], by simp [hp2, hlen], ?_⟩
      rw [hz, ← zipParts_append hp2]
      simp [variantParts, hpq, hp3]

/-- Two types whose parts do not fail have one head, and their parts are the
parts of the two types side by side. -/
theorem parts_clashless {ta tb : Ty} (ha : ∀ n k, ta.view ≠ .var n k)
    (hb : ∀ n k, tb.view ≠ .var n k) (h : Clashless (parts ta tb)) :
    ∃ hd cs ds, ta.view = .node hd cs ∧ tb.view = .node hd ds ∧ cs.length = ds.length ∧
      parts ta tb = zipParts cs ds := by
  cases ta <;> cases tb <;> first
    | exact absurd h not_clashless_clash
    | exact absurd rfl (ha _ _)
    | exact absurd rfl (hb _ _)
    | exact ⟨_, _, _, rfl, rfl, rfl, rfl⟩
    | simp only [parts] at h ⊢
  case UInt.UInt m n =>
    by_cases hmn : m = n
    · simp [hmn, Ty.view, zipParts]
    · simp [hmn, not_clashless_clash] at h
  case SInt.SInt m n =>
    by_cases hmn : m = n
    · simp [hmn, Ty.view, zipParts]
    · simp [hmn, not_clashless_clash] at h
  case Float.Float m n =>
    by_cases hmn : m = n
    · simp [hmn, Ty.view, zipParts]
    · simp [hmn, not_clashless_clash] at h
  case Fn.Fn ps r _ _ qs s _ _ =>
    by_cases hl : ps.length = qs.length
    · refine ⟨.Fn qs.length, ps ++ [r], qs ++ [s], by simp [Ty.view, hl], rfl, by simp [hl], ?_⟩
      rw [if_pos hl, ← zipParts_append hl]
      rfl
    · simp [hl, not_clashless_clash] at h
  case Tuple.Tuple xs ys =>
    by_cases hl : xs.length = ys.length
    · exact ⟨.Tuple ys.length, xs, ys, by simp [Ty.view, hl], rfl, hl, by rw [if_pos hl]⟩
    · simp [hl, not_clashless_clash] at h
  case Named.Named m xs n ys =>
    by_cases hl : m = n ∧ xs.length = ys.length
    · exact ⟨.Named n ys.length, xs, ys, by simp [Ty.view, hl], rfl, hl.2, by rw [if_pos hl]⟩
    · simp [hl, not_clashless_clash] at h
  case Ptr.Ptr p m q n =>
    by_cases hmn : m = n
    · exact ⟨.Ptr n, [p], [q], by simp [Ty.view, hmn], rfl, rfl, by rw [if_pos hmn]; rfl⟩
    · simp [hmn, not_clashless_clash] at h
  case Ref.Ref p m _ q n _ =>
    by_cases hmn : m = n
    · exact ⟨.Ref n, [p], [q], by simp [Ty.view, hmn], rfl, rfl, by rw [if_pos hmn]; rfl⟩
    · simp [hmn, not_clashless_clash] at h
  case Record.Record fs gs =>
    by_cases hl : fs.length = gs.length
    · simp only [hl, if_true] at h ⊢
      obtain ⟨hn, hp⟩ := fieldParts_clashless hl h
      exact ⟨.Record (gs.map (·.1)), _, _, by rw [Ty.view, hn], rfl, by simp [hl], hp⟩
    · simp [hl, not_clashless_clash] at h
  case Enum.Enum vs ws =>
    by_cases hl : vs.length = ws.length
    · simp only [hl, if_true] at h ⊢
      obtain ⟨hn, hlen, hp⟩ := variantParts_clashless hl h
      exact ⟨.Enum _, _, _, by rw [Ty.view, hn], rfl, hlen, hp⟩
    · simp [hl, not_clashless_clash] at h

variable {x y : TypeId}

theorem mem_zipParts {xs ys : List TypeId} (h : Part.pair x y ∈ zipParts xs ys) :
    x ∈ xs ∧ y ∈ ys := by
  obtain ⟨p, hp, he⟩ := mem_map.mp h
  cases he
  exact ⟨(of_mem_zip hp).1, (of_mem_zip hp).2⟩

theorem mem_fieldParts {what : String} {fs gs : List (Nat × TypeId)}
    (h : Part.pair x y ∈ fieldParts what fs gs) : x ∈ fs.map (·.2) ∧ y ∈ gs.map (·.2) := by
  obtain ⟨p, hp, he⟩ := mem_map.mp h
  obtain ⟨h1, h2⟩ := of_mem_zip hp
  split at he
  · cases he
    exact ⟨mem_map.mpr ⟨_, h1, rfl⟩, mem_map.mpr ⟨_, h2, rfl⟩⟩
  · cases he

theorem mem_payloadParts {p q : EnumPayload}
    (h : Part.pair x y ∈ payloadParts p q) : x ∈ p.children ∧ y ∈ q.children := by
  cases p <;> cases q <;> simp only [payloadParts] at h <;> try simp at h
  case Tuple.Tuple xs ys =>
    split at h
    · exact mem_zipParts h
    · simp at h
  case Record.Record fs gs =>
    split at h
    · exact mem_fieldParts h
    · simp at h

theorem mem_parts {ta tb : Ty} (h : Part.pair x y ∈ parts ta tb) :
    x ∈ ta.children ∧ y ∈ tb.children := by
  cases ta <;> cases tb <;> simp only [parts, mem_cons, List.not_mem_nil, or_false,
    reduceCtorEq] at h <;> split at h <;> simp only [Ty.children, Ty.view] <;>
    try simp only [mem_cons, List.not_mem_nil, or_false, reduceCtorEq] at h
  case Fn.Fn.isTrue ps r _ _ qs s _ _ _ =>
    rcases List.mem_append.mp h with h | h
    · exact ⟨mem_append_left _ (mem_zipParts h).1, mem_append_left _ (mem_zipParts h).2⟩
    · simp only [List.mem_singleton, Part.pair.injEq] at h
      simp [h]
  case Tuple.Tuple.isTrue => exact mem_zipParts h
  case Named.Named.isTrue => exact mem_zipParts h
  case Ptr.Ptr.isTrue => simpa using h
  case Ref.Ref.isTrue => simpa using h
  case Record.Record.isTrue => exact mem_fieldParts h
  case Enum.Enum.isTrue vs ws _ =>
    obtain ⟨p, hp, hxy⟩ := mem_flatMap.mp h
    obtain ⟨h1, h2⟩ := of_mem_zip hp
    unfold variantParts at hxy
    split at hxy
    · obtain ⟨hx, hy⟩ := mem_payloadParts hxy
      exact ⟨mem_flatMap.mpr ⟨_, h1, hx⟩, mem_flatMap.mpr ⟨_, h2, hy⟩⟩
    · simp at hxy

end

/-! ## A call as a run over its leaves -/

/-- A place where the walk over two types comes to an end: a variable meets a
type, or the two types differ. `deep` says that the place is below a head that
`Subst::apply` does not go below. -/
inductive Leaf where
  | bind (name : Nat) (kind : HrKind) (t : TypeId) (ty : Ty) (deep : Bool)
  | clash (e : UnifyError)
  deriving DecidableEq

def partLeaves (rec : TypeId → TypeId → List Leaf) : Part → List Leaf
  | .pair x y => rec x y
  | .clash e => [.clash e]

def leavesN (it : TypeInterner) : Nat → Bool → TypeId → TypeId → List Leaf
  | 0, _, _, _ => []
  | depth + 1, deep, a, b =>
    match it.types[a.index]?, it.types[b.index]? with
    | some ta, some tb =>
      match ta.view, tb.view with
      | .var n k, _ => [.bind n k b tb deep]
      | _, .var n k => [.bind n k a ta deep]
      | .node h _, _ => (parts ta tb).flatMap (partLeaves (leavesN it depth (deep || !walked h)))
    | _, _ => []

/-- The leaves of two types, from left to right. -/
def leaves (it : TypeInterner) (a b : TypeId) : List Leaf := leavesN it (a.index + 1) false a b

def runLeaf (it : TypeInterner) (fuel : Nat) : Leaf → UnifyM Unit
  | .bind name kind t ty _ => unify.bind it fuel name kind t ty
  | .clash e => throw e

section

variable {it : TypeInterner} {fuel : Nat} {a b : TypeId} {ta tb : Ty}

theorem forM_flatMap {α β : Type} (ps : List α) (f : α → List β) (g : β → UnifyM Unit) :
    (ps.flatMap f).forM g = ps.forM fun p => (f p).forM g := by
  induction ps with
  | nil => rfl
  | cons p ps ih =>
    simp only [forM_eq_forM] at ih ⊢
    rw [flatMap_cons, List.forM_append, forM_cons, ih]

theorem forM_congr {α : Type} {ps : List α} {f g : α → UnifyM Unit} (h : ∀ p ∈ ps, f p = g p) :
    ps.forM f = ps.forM g := by
  induction ps with
  | nil => rfl
  | cons p ps ih =>
    have htail := ih fun q hq => h q (.tail _ hq)
    simp only [forM_eq_forM] at htail ⊢
    rw [forM_cons, forM_cons, h p (by simp), htail]

theorem unifyN_types (depth : Nat) (ha : it.types[a.index]? = some ta)
    (hb : it.types[b.index]? = some tb) :
    unifyN it fuel (depth + 1) a b = unifyTypes it fuel (unifyN it fuel depth) a b ta tb := by
  simp only [unifyN, TypeInterner.get, ha, hb, Outcome.expect_some]
  rfl

theorem eq_of_view_var {ty : Ty} {n : Nat} {k : HrKind} (h : ty.view = .var n k) :
    ty = .Var n k := by
  cases ty
  case Var =>
    cases h
    rfl
  all_goals cases h

theorem unifyTypes_var_right {rec : TypeId → TypeId → UnifyM Unit} {ta : Ty} {h : Head}
    {cs : List TypeId} {n : Nat} {k : HrKind} (hv : ta.view = .node h cs) :
    unifyTypes it fuel rec a b ta (.Var n k) = unify.bind it fuel n k a ta := by
  cases ta
  case Var => cases hv
  all_goals rfl

/-- A call of `unify` is the run over the leaves of its two types. -/
theorem unifyN_eq_leaves (hg : it.Good) (depth : Nat) (deep : Bool) (hd : a.index < depth)
    (ha : it.Has a) (hb : it.Has b) :
    unifyN it fuel depth a b = (leavesN it depth deep a b).forM (runLeaf it fuel) := by
  induction depth generalizing a b deep with
  | zero => omega
  | succ depth ih =>
    obtain ⟨ta, hta⟩ := TypeInterner.has_iff.mp ha
    obtain ⟨tb, htb⟩ := TypeInterner.has_iff.mp hb
    rw [unifyN_types depth hta htb]
    cases hva : ta.view with
    | var n k =>
      obtain rfl := eq_of_view_var hva
      simp only [leavesN, hta, htb, Ty.view]
      exact (bind_pure _).symm
    | node h cs =>
      cases hvb : tb.view with
      | var n k =>
        obtain rfl := eq_of_view_var hvb
        rw [unifyTypes_var_right hva]
        simp only [leavesN, hta, htb]
        rw [hva]
        exact (bind_pure _).symm
      | node h' ds =>
        rw [unifyTypes_eq ta tb (by simp [hva]) (by simp [hvb])]
        simp only [leavesN, hta, htb, hva, hvb, forM_flatMap]
        apply forM_congr
        intro p hp
        cases p with
        | clash e => rfl
        | pair x y =>
          obtain ⟨hx, hy⟩ := mem_parts hp
          have hlt := hg.child_lt hta hx
          exact ih _ (by omega) (hg.child_has hta hx) (hg.child_has htb hy)

theorem unify_eq_leaves (hg : it.Good) (ha : it.Has a) (hb : it.Has b) :
    unify it fuel a b = (leaves it a b).forM (runLeaf it fuel) :=
  unifyN_eq_leaves hg _ _ (by omega) ha hb

end

end paideia_as_types
