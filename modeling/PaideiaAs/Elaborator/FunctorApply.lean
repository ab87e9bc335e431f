-- Functor application with a cache of results that lives as long as the
-- process, and when the cache does not show (`functor_apply.rs`).
import PaideiaAs.Elaborator.Modules

namespace paideia_as_elaborator.functor_apply

open paideia_as_diagnostics modules

/-! ## The key -/

mutual

/-- `Debug` of a signature kind. -/
def debug_signature (printable : Char → Bool) : SignatureKind → String
  | ⟨decls⟩ => "SignatureKind \x7b decls: " ++ debug_list (debug_decls printable decls) ++ " \x7d"

def debug_decl (printable : Char → Bool) : SigDeclKind → String
  | .Type name kind =>
    "Type \x7b name: " ++ debug_str printable name ++ ", kind: " ++ kind.debug ++ " \x7d"
  | .Val name ty_id =>
    "Val \x7b name: " ++ debug_str printable name ++ ", ty_id: " ++ toString ty_id ++ " \x7d"
  | .Module name kind =>
    "Module \x7b name: " ++ debug_str printable name ++ ", kind: " ++ debug_signature printable kind
      ++ " \x7d"

def debug_decls (printable : Char → Bool) : List SigDeclKind → List String
  | [] => []
  | d :: ds => debug_decl printable d :: debug_decls printable ds

end

/-- The four bytes of a `u32`, the lowest first. -/
def u32_le (n : Nat) : List UInt8 :=
  [UInt8.ofNat n, UInt8.ofNat (n / 2 ^ 8), UInt8.ofNat (n / 2 ^ 16), UInt8.ofNat (n / 2 ^ 24)]

section

variable {η : Type} [DecidableEq η] (hash : List UInt8 → η) (printable : Char → Bool)

/-- The parts are hashed one after the other, without their lengths. -/
def compute_apply_key (functor : Functor) (argument : TypedValue) : η :=
  let span := functor.body.span
  hash (bytes functor.param_name ++ u32_le span.file.num ++ u32_le span.byte_start ++
    u32_le span.byte_end ++ bytes (debug_signature printable argument.signature))

/-! ## Application -/

/-- The argument as the first binding of the result. -/
def param_binding (functor : Functor) (argument : TypedValue) : FieldBinding :=
  ⟨functor.param_name, 0, .Module argument, .Unrestricted, functor.span⟩

def elaborate_body (functor : Functor) : TypedValue × List Diagnostic :=
  let (body_tv, _, diags) := elaborate_structure functor.body .new
  (body_tv, diags)

/-- What an application is worth when it is not in the cache. -/
def applied (functor : Functor) (argument : TypedValue) : TypedValue :=
  let body_tv := (elaborate_body functor).1
  { body_tv with bindings := param_binding functor argument :: body_tv.bindings }

/-- The cache after the call, the result, and the diagnostics of the call. -/
def apply_functor (cache : List (η × TypedValue)) (functor : Functor) (argument : TypedValue) :
    List (η × TypedValue) × Option TypedValue × List Diagnostic :=
  let (ok, diags) := match_signature printable functor.param_signature argument
  if ok then
    let key := compute_apply_key hash printable functor argument
    match cache.lookup key with
    | some cached => (cache, some cached, diags)
    | none =>
      let body_tv := applied functor argument
      (Assoc.insert cache key body_tv, some body_tv, diags ++ (elaborate_body functor).2)
  else (cache, none, diags)

/-! ## Sequences of calls -/

abbrev Call := Functor × TypedValue

/-- The results and diagnostics of calls that share a cache. -/
def run (cache : List (η × TypedValue)) : List Call → List (Option TypedValue × List Diagnostic)
  | [] => []
  | (functor, argument) :: calls =>
    let (cache, out) := apply_functor hash printable cache functor argument
    out :: run cache calls

/-- The result and diagnostics of a call on an empty cache. -/
def alone (c : Call) : Option TypedValue × List Diagnostic :=
  (apply_functor hash printable [] c.1 c.2).2

/-- The argument has what the functor asks for. -/
def Accepted (c : Call) : Prop := (match_signature printable c.1.param_signature c.2).1 = true

/-- The later call has no diagnostics of its own to give, and the result of the
earlier one is its result too. -/
structure Interchangeable (c d : Call) : Prop where
  param_name : c.1.param_name = d.1.param_name
  argument : c.2 = d.2
  span : c.1.span = d.1.span
  body : (elaborate_body c.1).1 = (elaborate_body d.1).1
  silent : (elaborate_body d.1).2 = []

variable {c : Call} {cache : List (η × TypedValue)}

theorem applied_eq_iff {d : Call} :
    applied c.1 c.2 = applied d.1 d.2 ∧ (elaborate_body d.1).2 = [] ↔ Interchangeable c d := by
  constructor
  · rintro ⟨happ, hsilent⟩
    unfold applied at happ
    simp only [TypedValue.mk.injEq, List.cons.injEq] at happ
    obtain ⟨⟨hparam, hbindings⟩, hsignature, hspan⟩ := happ
    unfold param_binding at hparam
    simp only [FieldBinding.mk.injEq, ValueRef.Module.injEq, true_and] at hparam
    obtain ⟨hname, harg, hfspan⟩ := hparam
    refine ⟨hname, harg, hfspan, ?_, hsilent⟩
    cases hc : (elaborate_body c.1).1
    cases hd : (elaborate_body d.1).1
    rw [hc, hd] at hbindings hsignature hspan
    cases hbindings
    cases hsignature
    cases hspan
    rfl
  · rintro ⟨hname, harg, hfspan, hbody, hsilent⟩
    refine ⟨?_, hsilent⟩
    unfold applied param_binding
    rw [hname, harg, hfspan, hbody]

/-- What the cache holds for a call is what the call is worth. -/
def Agrees (cache : List (η × TypedValue)) (c : Call) : Prop :=
  ∀ cached, cache.lookup (compute_apply_key hash printable c.1 c.2) = some cached →
    cached = applied c.1 c.2 ∧ (elaborate_body c.1).2 = []

/-- Two calls in a sequence, the earlier one first. -/
def Compatible (c d : Call) : Prop :=
  Accepted printable c → Accepted printable d →
    compute_apply_key hash printable c.1 c.2 = compute_apply_key hash printable d.1 d.2 →
    Interchangeable c d

variable {hash printable}

theorem apply_refused (h : ¬ Accepted printable c) :
    apply_functor hash printable cache c.1 c.2 = (cache, alone hash printable c) := by
  unfold Accepted at h
  unfold alone apply_functor
  simp only [Bool.not_eq_true] at h
  simp [h]

section

variable (h : Accepted printable c)

include h

theorem alone_accepted : alone hash printable c = (some (applied c.1 c.2),
      (match_signature printable c.1.param_signature c.2).2 ++ (elaborate_body c.1).2) := by
  unfold Accepted at h
  unfold alone apply_functor
  simp [h]

theorem apply_miss (hmiss : cache.lookup (compute_apply_key hash printable c.1 c.2) = none) :
    apply_functor hash printable cache c.1 c.2
      = (Assoc.insert cache (compute_apply_key hash printable c.1 c.2) (applied c.1 c.2),
        alone hash printable c) := by
  rw [alone_accepted h]
  unfold Accepted at h
  unfold apply_functor
  simp [h, hmiss]

theorem apply_hit {cached : TypedValue}
    (hhit : cache.lookup (compute_apply_key hash printable c.1 c.2) = some cached) :
    apply_functor hash printable cache c.1 c.2
      = (cache, some cached, (match_signature printable c.1.param_signature c.2).2) := by
  unfold Accepted at h
  unfold apply_functor
  simp [h, hhit]

/-- A hit does not show exactly when the cache agrees with the call. -/
theorem hit_eq_alone_iff {cached : TypedValue}
    (hhit : cache.lookup (compute_apply_key hash printable c.1 c.2) = some cached) :
    (apply_functor hash printable cache c.1 c.2).2 = alone hash printable c ↔
      Agrees hash printable cache c := by
  rw [apply_hit h hhit, alone_accepted h]
  unfold Agrees
  rw [hhit]
  simp

end

/-- After a miss, the cache agrees with a later call when it agreed before and the
two calls are compatible. -/
theorem agrees_insert_iff {d : Call} (hc : Accepted printable c) (hd : Accepted printable d)
    (hmiss : cache.lookup (compute_apply_key hash printable c.1 c.2) = none) :
    Agrees hash printable
        (Assoc.insert cache (compute_apply_key hash printable c.1 c.2) (applied c.1 c.2)) d ↔
      Agrees hash printable cache d ∧ Compatible hash printable c d := by
  unfold Agrees Compatible
  rw [Assoc.lookup_insert]
  by_cases hkey : compute_apply_key hash printable d.1 d.2 = compute_apply_key hash printable c.1 c.2
  · rw [if_pos hkey, hkey, hmiss]
    have hinter := applied_eq_iff (c := c) (d := d)
    simp only [Option.some.injEq, forall_eq', hinter, hc, hd, true_imp_iff, reduceCtorEq, false_imp_iff,
      implies_true, true_and]
  · rw [if_neg hkey]
    have hne : compute_apply_key hash printable c.1 c.2 ≠ compute_apply_key hash printable d.1 d.2 :=
      fun h => hkey h.symm
    simp [hne]

theorem run_eq_iff (cache : List (η × TypedValue)) (calls : List Call) :
    run hash printable cache calls = calls.map (alone hash printable) ↔
      (∀ c ∈ calls, Accepted printable c → Agrees hash printable cache c) ∧
        calls.Pairwise (Compatible hash printable) := by
  induction calls generalizing cache with
  | nil => simp [run]
  | cons c calls ih =>
    have hcons : run hash printable cache (c :: calls)
        = (apply_functor hash printable cache c.1 c.2).2
          :: run hash printable (apply_functor hash printable cache c.1 c.2).1 calls := rfl
    rw [hcons, List.map_cons, List.cons.injEq, ih, List.pairwise_cons, List.forall_mem_cons]
    by_cases hc : Accepted printable c
    · cases hlook : cache.lookup (compute_apply_key hash printable c.1 c.2) with
      | none =>
        rw [apply_miss hc hlook]
        have hagrees : Agrees hash printable cache c := by
          intro cached hcached
          rw [hlook] at hcached
          cases hcached
        constructor
        · rintro ⟨_, hall, hpairs⟩
          refine ⟨⟨fun _ => hagrees, fun d hd had => ?_⟩, fun d hd => ?_, hpairs⟩
          · exact ((agrees_insert_iff hc had hlook).mp (hall d hd had)).1
          · intro hc' had
            exact ((agrees_insert_iff hc had hlook).mp (hall d hd had)).2 hc' had
        · rintro ⟨⟨_, hall⟩, hfirst, hpairs⟩
          refine ⟨rfl, fun d hd had => ?_, hpairs⟩
          exact (agrees_insert_iff hc had hlook).mpr ⟨hall d hd had, hfirst d hd⟩
      | some cached =>
        rw [hit_eq_alone_iff hc hlook, apply_hit hc hlook]
        constructor
        · rintro ⟨hagrees, hall, hpairs⟩
          refine ⟨⟨fun _ => hagrees, hall⟩, fun d hd => ?_, hpairs⟩
          -- the cached result is the one of both calls
          intro _ had hkey
          have hdval := hall d hd had cached (hkey ▸ hlook)
          have hcval := hagrees cached hlook
          exact applied_eq_iff.mp ⟨hcval.1.symm.trans hdval.1, hdval.2⟩
        · rintro ⟨⟨hagrees, hall⟩, _, hpairs⟩
          exact ⟨hagrees hc, hall, hpairs⟩
    · rw [apply_refused hc]
      constructor
      · rintro ⟨_, hall, hpairs⟩
        exact ⟨⟨fun h => absurd h hc, hall⟩, fun d _ h => absurd h hc, hpairs⟩
      · rintro ⟨⟨_, hall⟩, _, hpairs⟩
        exact ⟨rfl, hall, hpairs⟩

variable (hash printable)

/-- The calls give what they give on an empty cache exactly when of any two accepted
calls with one key the later one gives the result of the earlier one, and no
diagnostics of its body. -/
theorem cache_transparent_iff (calls : List Call) :
    run hash printable [] calls = calls.map (alone hash printable) ↔
      calls.Pairwise (Compatible hash printable) := by
  rw [run_eq_iff]
  have hempty : ∀ c : Call, Agrees hash printable [] c := by
    intro c cached h
    cases h
  simp [hempty]

end

/-! ## Calls in which the cache shows -/

def at_start : Span := ⟨⟨1, Nat.zero_lt_one⟩, 0, 1, Span.one_fits⟩

/-- A functor without requirements on its argument. -/
def functor_of (defs : List Def) : Functor := ⟨"M", ⟨[], at_start⟩, ⟨defs, at_start⟩, at_start⟩

def module_of (expr : String) : TypedValue :=
  ⟨[⟨"x", 0, .Val expr, .Unrestricted, at_start⟩], ⟨[.Val "x" 0]⟩, at_start⟩

/-- The result for one argument is given for another argument of the same
signature, and a second call does not tell what is wrong with the body. -/
theorem cache_shows :
    run id (fun _ => true) [] [(functor_of [], module_of "1"), (functor_of [], module_of "2")]
        ≠ [(functor_of [], module_of "1"), (functor_of [], module_of "2")].map
          (alone id fun _ => true) ∧
      run id (fun _ => true) []
          [(functor_of [.Val "r" "linear:r" at_start], module_of "1"),
            (functor_of [.Val "r" "linear:r" at_start], module_of "1")]
        ≠ [(functor_of [.Val "r" "linear:r" at_start], module_of "1"),
            (functor_of [.Val "r" "linear:r" at_start], module_of "1")].map
          (alone id fun _ => true) := by
  constructor
  · intro h
    have hpairs := ((run_eq_iff _ _).mp h).2
    have harg := (List.pairwise_cons.mp hpairs).1 _ (List.mem_singleton_self _) rfl rfl rfl
    have hval := congrArg TypedValue.bindings harg.argument
    simp [module_of] at hval
  · intro h
    have hpairs := ((run_eq_iff _ _).mp h).2
    have hbody := (List.pairwise_cons.mp hpairs).1 _ (List.mem_singleton_self _) rfl rfl rfl
    have hlen := congrArg List.length hbody.silent
    exact absurd hlen (by decide)

end paideia_as_elaborator.functor_apply
