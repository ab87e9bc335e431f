-- The types of the checker and their interner. A type names its parts by
-- id, and the interner gives equal types equal ids. Every part of an
-- interned type was interned before it, so a type is a finite tree.
import PaideiaAs.Lib.FirstOrder
import PaideiaAs.Lib.Outcome

open FirstOrder

namespace paideia_as_types

/-! ## The data -/

/-- The kind of a type variable. -/
inductive HrKind where
  | Star
  | Arrow (a b : HrKind)
  deriving DecidableEq

/-- The id of an interned type. Rust holds `index + 1` in a `NonZeroU32`. -/
structure TypeId where
  index : Nat
  deriving DecidableEq

/-- A type variable: a `NonZeroU32`. -/
@[ext] structure TyVar where
  num : Nat
  pos : 0 < num

instance : DecidableEq TyVar := fun _ _ => decidable_of_iff _ TyVar.ext_iff.symm

def TyVar.new (n : Nat) : Option TyVar := if h : 0 < n then some ⟨n, h⟩ else none

theorem TyVar.new_num (v : TyVar) : TyVar.new v.num = some v := by
  simp [TyVar.new, v.pos]

theorem TyVar.new_eq_some {n : Nat} {v : TyVar} : TyVar.new n = some v ↔ v.num = n := by
  constructor
  · intro h
    unfold TyVar.new at h
    split at h
    · cases h; rfl
    · cases h
  · rintro rfl
    exact v.new_num

inductive EnumPayload where
  | Unit
  | Tuple (types : List TypeId)
  | Record (fields : List (Nat × TypeId))
  deriving DecidableEq

/-- `Type` of the Rust code. -/
inductive Ty where
  | Unit
  | Bool
  | Char
  | UInt (bits : Nat)
  | SInt (bits : Nat)
  | Float (bits : Nat)
  | Top
  | Bot
  | Fn (params : List TypeId) (ret : TypeId) (effects caps : Nat)
  | Tuple (xs : List TypeId)
  | Named (name : Nat) (args : List TypeId)
  | Var (name : Nat) (kind : HrKind)
  | Term
  | Ptr (pointee : TypeId) (mutable : Bool)
  | Ref (pointee : TypeId) (mutable : Bool) (lifetime : Nat)
  | Record (fields : List (Nat × TypeId))
  | Enum (variants : List (Nat × EnumPayload))
  | Str
  | Vec (elem : TypeId) (n : Nat)
  deriving DecidableEq

/-! ## The head and the parts of a type -/

inductive PayloadHead where
  | Unit
  | Tuple (arity : Nat)
  | Record (names : List Nat)
  deriving DecidableEq

/-- A type without its parts. Effect rows, capability sets and lifetimes are
not in it, as `unify` leaves them to the elaborator. -/
inductive Head where
  | Unit
  | Bool
  | Char
  | UInt (bits : Nat)
  | SInt (bits : Nat)
  | Float (bits : Nat)
  | Top
  | Bot
  | Fn (arity : Nat)
  | Tuple (arity : Nat)
  | Named (name arity : Nat)
  | Term
  | Ptr (mutable : Bool)
  | Ref (mutable : Bool)
  | Record (names : List Nat)
  | Enum (variants : List (Nat × PayloadHead))
  | Str
  | Vec (n : Nat)
  deriving DecidableEq

namespace EnumPayload

def head : EnumPayload → PayloadHead
  | .Unit => .Unit
  | .Tuple ts => .Tuple ts.length
  | .Record fs => .Record (fs.map (·.1))

def children : EnumPayload → List TypeId
  | .Unit => []
  | .Tuple ts => ts
  | .Record fs => fs.map (·.2)

end EnumPayload

/-- What a type is at its root: a variable, or a head over its parts. -/
inductive View where
  | var (name : Nat) (kind : HrKind)
  | node (head : Head) (children : List TypeId)
  deriving DecidableEq

namespace Ty

def view : Ty → View
  | Unit => .node .Unit []
  | Bool => .node .Bool []
  | Char => .node .Char []
  | UInt b => .node (.UInt b) []
  | SInt b => .node (.SInt b) []
  | Float b => .node (.Float b) []
  | Top => .node .Top []
  | Bot => .node .Bot []
  | Fn ps r _ _ => .node (.Fn ps.length) (ps ++ [r])
  | Tuple xs => .node (.Tuple xs.length) xs
  | Named n as => .node (.Named n as.length) as
  | Var n k => .var n k
  | Term => .node .Term []
  | Ptr p m => .node (.Ptr m) [p]
  | Ref p m _ => .node (.Ref m) [p]
  | Record fs => .node (.Record (fs.map (·.1))) (fs.map (·.2))
  | Enum vs => .node (.Enum (vs.map fun v => (v.1, v.2.head))) (vs.flatMap fun v => v.2.children)
  | Str => .node .Str []
  | Vec e n => .node (.Vec n) [e]

/-- The parts of a type, in order. -/
def children (ty : Ty) : List TypeId :=
  match ty.view with
  | .var _ _ => []
  | .node _ cs => cs

/-- The name, when the type is a variable. -/
def varName (ty : Ty) : Option Nat :=
  match ty.view with
  | .var n _ => some n
  | .node _ _ => none

theorem varName_eq {ty : Ty} {n : Nat} : n ∈ ty.varName ↔ ∃ k, ty.view = .var n k := by
  unfold varName
  cases ty.view <;> simp

end Ty

/-- The heads that `Subst::apply` and `Subst::occurs_in` go below. -/
def walked : Head → Bool
  | .Fn _ | .Tuple _ | .Named _ _ => true
  | _ => false

/-! ## The interner -/

/-- The interned types in order. `by_value` of the Rust code is the inverse of
this list, and the cached ids of the base types are entries of it. -/
structure TypeInterner where
  types : List Ty
  deriving DecidableEq

namespace TypeInterner

/-- `interner.get(id)`; an id past the end is a panic of the slice index. -/
def get (it : TypeInterner) (t : TypeId) : Outcome Ty := Outcome.expect it.types[t.index]?

def intern (it : TypeInterner) (ty : Ty) : TypeId × TypeInterner :=
  match it.types.idxOf? ty with
  | some i => (⟨i⟩, it)
  | none => (⟨it.types.length⟩, { types := it.types ++ [ty] })

/-- The id is one of the interner. -/
def Has (it : TypeInterner) (t : TypeId) : Prop := t.index < it.types.length

instance (it : TypeInterner) (t : TypeId) : Decidable (it.Has t) :=
  inferInstanceAs (Decidable (_ < _))

/-- What every interner keeps: the parts of a type are interned before it, the
name of a variable is the number of a `TyVar`, and equal types have one id. -/
structure Good (it : TypeInterner) : Prop where
  ordered : ∀ (i : Nat) (ty : Ty), it.types[i]? = some ty → ∀ c ∈ ty.children, c.index < i
  named : ∀ ty ∈ it.types, ∀ n k, ty.view = .var n k → 0 < n
  nodup : it.types.Nodup

/-- `it'` holds the types of `it` under the same ids, and maybe more. -/
def Grows (it it' : TypeInterner) : Prop := it.types <+: it'.types

variable {it it' : TypeInterner} {t : TypeId} {ty : Ty}

theorem Grows.refl (it : TypeInterner) : it.Grows it := List.prefix_refl _

theorem Grows.trans {a b c : TypeInterner} (h : a.Grows b) (h' : b.Grows c) : a.Grows c :=
  List.IsPrefix.trans h h'

theorem good_iff : it.Good ↔
    (∀ i ∈ List.range it.types.length, ∀ ty ∈ it.types[i]?, ∀ c ∈ ty.children, c.index < i) ∧
    (∀ ty ∈ it.types, ∀ n ∈ ty.varName, 0 < n) ∧ it.types.Nodup := by
  constructor
  · intro h
    refine ⟨fun i _ ty hty => h.ordered i ty hty, ?_, h.nodup⟩
    intro ty hty n hn
    obtain ⟨k, hk⟩ := Ty.varName_eq.mp hn
    exact h.named ty hty n k hk
  · rintro ⟨h1, h2, h3⟩
    refine ⟨?_, fun ty hty n k hk => h2 ty hty n (Ty.varName_eq.mpr ⟨k, hk⟩), h3⟩
    intro i ty hty
    exact h1 i (by simpa using (List.getElem?_eq_some_iff.mp hty).1) ty hty

instance : Decidable it.Good := decidable_of_iff _ good_iff.symm

theorem has_iff : it.Has t ↔ ∃ ty, it.types[t.index]? = some ty := by
  unfold Has
  constructor
  · intro h
    exact ⟨_, List.getElem?_eq_getElem h⟩
  · rintro ⟨ty, h⟩
    exact (List.getElem?_eq_some_iff.mp h).1

theorem Grows.lookup (h : it.Grows it') (ht : it.types[t.index]? = some ty) :
    it'.types[t.index]? = some ty := by
  obtain ⟨rest, hrest⟩ := h
  have hlt := (List.getElem?_eq_some_iff.mp ht).1
  rw [← hrest, List.getElem?_append_left hlt, ht]

theorem Grows.has (h : it.Grows it') (ht : it.Has t) : it'.Has t := by
  obtain ⟨ty, hty⟩ := has_iff.mp ht
  exact has_iff.mpr ⟨ty, h.lookup hty⟩

theorem Good.child_lt (h : it.Good) (ht : it.types[t.index]? = some ty) {c : TypeId}
    (hc : c ∈ ty.children) : c.index < t.index := h.ordered _ _ ht c hc

theorem Good.child_has (h : it.Good) (ht : it.types[t.index]? = some ty) {c : TypeId}
    (hc : c ∈ ty.children) : it.Has c := by
  have hlt := h.child_lt ht hc
  have : it.Has t := has_iff.mpr ⟨ty, ht⟩
  unfold Has at this ⊢
  omega

/-- Interning a type whose parts are interned keeps the invariant, keeps every
old id, and gives an id of that type. -/
theorem intern_spec (h : it.Good) (hc : ∀ c ∈ ty.children, it.Has c)
    (hn : ∀ n k, ty.view = .var n k → 0 < n) :
    (it.intern ty).2.Good ∧ it.Grows (it.intern ty).2 ∧
      (it.intern ty).2.types[(it.intern ty).1.index]? = some ty := by
  unfold intern
  cases hi : it.types.idxOf? ty with
  | some i =>
    refine ⟨h, Grows.refl it, ?_⟩
    obtain ⟨hlt, hget, _⟩ := List.idxOf?_eq_some_iff.mp hi
    simp [hlt, hget]
  | none =>
    have hnot : ty ∉ it.types := List.idxOf?_eq_none_iff.mp hi
    refine ⟨⟨?_, ?_, ?_⟩, List.prefix_append _ _, by simp⟩
    · intro i ty' hget c hmem
      simp only [List.getElem?_append] at hget
      split at hget
      · exact h.ordered i ty' hget c hmem
      · rename_i hge
        have hty : ty' = ty ∧ i = it.types.length := by
          simp only [List.getElem?_singleton] at hget
          split at hget
          · exact ⟨by simpa using hget.symm, by omega⟩
          · cases hget
        rw [hty.2]
        exact hc c (hty.1 ▸ hmem)
    · intro ty' hmem n k hv
      rcases List.mem_append.mp hmem with hmem | hmem
      · exact h.named ty' hmem n k hv
      · rw [List.mem_singleton.mp hmem] at hv
        exact hn n k hv
    · simp only [List.nodup_append, h.nodup, List.nodup_singleton, true_and, List.mem_singleton]
      rintro a ha b rfl hab
      exact hnot (hab ▸ ha)

end TypeInterner

/-- An interner that keeps the invariant: the ones that `intern` builds. -/
abbrev Interner := { it : TypeInterner // it.Good }

/-! ## Recursion over the parts of a type -/

namespace TypeInterner

variable {α : Type}

/-- A value for an id from the values of its parts, to depth `n`. -/
def foldN (d : α) (f : Ty → (TypeId → α) → α) (it : TypeInterner) : Nat → TypeId → α
  | 0, _ => d
  | n + 1, t =>
    match it.types[t.index]? with
    | none => d
    | some ty => f ty (foldN d f it n)

/-- The parts of a type come before it, so its own index bounds its depth. -/
def fold (d : α) (f : Ty → (TypeId → α) → α) (it : TypeInterner) (t : TypeId) : α :=
  foldN d f it (t.index + 1) t

/-- `f` reads the values of the parts of the type only. -/
def Local (f : Ty → (TypeId → α) → α) : Prop :=
  ∀ ty g g', (∀ c ∈ ty.children, g c = g' c) → f ty g = f ty g'

variable {d : α} {f : Ty → (TypeId → α) → α} {it it' : TypeInterner}

theorem foldN_stable (hf : Local f) (h : it.Good) (hg : it.Grows it') (n m : Nat) (t : TypeId)
    (ht : it.Has t) (hn : t.index < n) (hm : t.index < m) :
    foldN d f it n t = foldN d f it' m t := by
  induction n generalizing m t with
  | zero => omega
  | succ n ih =>
    obtain ⟨m, rfl⟩ : ∃ k, m = k + 1 := ⟨m - 1, by omega⟩
    obtain ⟨ty, hty⟩ := has_iff.mp ht
    simp only [foldN, hty, hg.lookup hty]
    apply hf
    intro c hc
    have hlt := h.child_lt hty hc
    exact ih m c (h.child_has hty hc) (by omega) (by omega)

theorem fold_eq (hf : Local f) (h : it.Good) {t : TypeId} {ty : Ty}
    (ht : it.types[t.index]? = some ty) : fold d f it t = f ty (fold d f it) := by
  have hstep : fold d f it t = f ty (foldN d f it t.index) := by simp only [fold, foldN, ht]
  rw [hstep]
  apply hf
  intro c hc
  have hlt := h.child_lt ht hc
  exact foldN_stable hf h (Grows.refl it) _ _ c (h.child_has ht hc) hlt (by omega)

theorem Grows.fold (hg : it.Grows it') (hf : Local f) (h : it.Good) {t : TypeId}
    (ht : it.Has t) : TypeInterner.fold d f it' t = TypeInterner.fold d f it t :=
  (foldN_stable hf h hg _ _ t ht (by omega) (by omega)).symm

end TypeInterner

/-! ## Types as trees -/

/-- A type written out in full, with its variables by name and kind. -/
abbrev Tree := Term Head (Nat × HrKind)

def Ty.treeOf (ty : Ty) (g : TypeId → Tree) : Tree :=
  match ty.view with
  | .var n k => .var (n, k)
  | .node h cs => (Term.con h).apps (cs.map g)

/-- The tree of an interned type. Two ids have one tree when their types are the
same up to effect rows, capability sets and lifetimes. -/
def tree (it : TypeInterner) (t : TypeId) : Tree := it.fold (.con .Bot) Ty.treeOf t

theorem treeOf_local : TypeInterner.Local Ty.treeOf := by
  intro ty g g' h
  unfold Ty.treeOf
  unfold Ty.children at h
  cases hv : ty.view with
  | var n k => rfl
  | node hd cs =>
    simp only [hv] at h ⊢
    rw [List.map_congr_left h]

section

variable {it it' : TypeInterner} {t : TypeId} {ty : Ty}

theorem tree_eq (h : it.Good) (ht : it.types[t.index]? = some ty) :
    tree it t = ty.treeOf (tree it) := TypeInterner.fold_eq treeOf_local h ht

theorem tree_var (h : it.Good) (ht : it.types[t.index]? = some ty) {n : Nat} {k : HrKind}
    (hv : ty.view = .var n k) : tree it t = .var (n, k) := by
  rw [tree_eq h ht, Ty.treeOf, hv]

theorem tree_node (h : it.Good) (ht : it.types[t.index]? = some ty) {hd : Head}
    {cs : List TypeId} (hv : ty.view = .node hd cs) :
    tree it t = (Term.con hd).apps (cs.map (tree it)) := by
  rw [tree_eq h ht, Ty.treeOf, hv]

theorem tree_grows (hg : it.Grows it') (h : it.Good) (ht : it.Has t) : tree it' t = tree it t :=
  hg.fold treeOf_local h ht

end

/-- A type as `Subst::apply` sees it: what stands under a head that it does not
go below is one symbol. -/
abbrev Shown := Term Tree (Nat × HrKind)

/-- The head at the root of a tree. -/
def spine : Tree → Option Head
  | .var _ => none
  | .con h => some h
  | .app f _ => spine f

def shown : Tree → Shown
  | .var v => .var v
  | .con h => .con (.con h)
  | .app f x => if (spine f).any walked then .app (shown f) (shown x) else .con (.app f x)

/-- The tree behind what is shown. -/
def Shown.flat : Shown → Tree
  | .var v => .var v
  | .con t => t
  | .app f x => .app (flat f) (flat x)

@[simp] theorem shown_flat (x : Tree) : (shown x).flat = x := by
  induction x with
  | var v => rfl
  | con h => rfl
  | app f x ihf ihx =>
    unfold shown
    split
    · simp [Shown.flat, ihf, ihx]
    · rfl

theorem shown_inj {x y : Tree} (h : shown x = shown y) : x = y := by
  rw [← shown_flat x, ← shown_flat y, h]

theorem spine_apps (f : Tree) (xs : List Tree) : spine (f.apps xs) = spine f := by
  induction xs generalizing f with
  | nil => rfl
  | cons x xs ih => rw [Term.apps_cons, ih, spine]

theorem shown_apps_walked {f : Tree} (h : (spine f).any walked) (xs : List Tree) :
    shown (f.apps xs) = (shown f).apps (xs.map shown) := by
  induction xs generalizing f with
  | nil => rfl
  | cons x xs ih =>
    have hs : spine (Term.app f x) = spine f := rfl
    rw [Term.apps_cons, ih (by rw [hs]; exact h), List.map_cons, Term.apps_cons]
    simp [shown, h]

theorem shown_apps_opaque {h : Head} (hw : walked h = false) (xs : List Tree) :
    shown ((Term.con h : Tree).apps xs) = .con ((Term.con h).apps xs) := by
  rcases List.eq_nil_or_concat xs with rfl | ⟨ys, y, rfl⟩
  · rfl
  · have hs : spine ((Term.con h : Tree).apps ys) = some h := by rw [spine_apps]; rfl
    simp only [Term.apps, List.concat_eq_append, List.foldl_append, List.foldl_cons, List.foldl_nil]
    rw [shown]
    simp only [Term.apps] at hs
    simp [hs, hw]

end paideia_as_types
