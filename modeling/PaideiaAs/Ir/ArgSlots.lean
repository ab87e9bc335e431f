-- Where the arguments of a call go (`map_args` of `abi.rs`): the registers and the
-- stack slots of the System V and of the MS convention, in a build whose `u32`
-- arithmetic wraps. A build that checks it panics instead, on the same lists.
import PaideiaAs.Ir.Abi
import Mathlib.Data.List.Count
import Mathlib.Data.List.Nodup
import Mathlib.Data.List.Induction

namespace paideia_as_ir.abi

open paideia_as_runtime

/-! ## The mapping -/

def RSI : RegId := ⟨6⟩
def R8 : RegId := ⟨8⟩
def R9 : RegId := ⟨9⟩
def XMM2 : RegId := ⟨55⟩
def XMM3 : RegId := ⟨56⟩
def XMM4 : RegId := ⟨57⟩
def XMM5 : RegId := ⟨58⟩
def XMM6 : RegId := ⟨59⟩
def XMM7 : RegId := ⟨60⟩

def ARG_REGS : List RegId := [RDI, RSI, RDX, RCX, R8, R9]

def XMM_ARG_REGS : List RegId := [XMM0, XMM1, XMM2, XMM3, XMM4, XMM5, XMM6, XMM7]

def MS_ARG_REGS : List RegId := [RCX, RDX, R8, R9]

def MS_SHADOW_SPACE_BYTES : UInt32 := 32

inductive CallingConvention where
  | Sysv
  | Ms

inductive ArgClass where
  | Integer
  | Float
  deriving DecidableEq

inductive ArgSlot where
  | Reg (r : RegId)
  | Stack (offset : UInt32)
  deriving DecidableEq

/-- The closure of the System V convention over the arguments, with its three counters. -/
def map_sysv (int_used float_used stack_idx : Nat) : List ArgClass → List ArgSlot
  | [] => []
  | .Integer :: classes =>
    match ARG_REGS[int_used]? with
    | some r => .Reg r :: map_sysv (int_used + 1) float_used stack_idx classes
    | none => .Stack (stack_idx.toUInt32 * 8) ::
        map_sysv int_used float_used (stack_idx + 1) classes
  | .Float :: classes =>
    match XMM_ARG_REGS[float_used]? with
    | some r => .Reg r :: map_sysv int_used (float_used + 1) stack_idx classes
    | none => .Stack (stack_idx.toUInt32 * 8) ::
        map_sysv int_used float_used (stack_idx + 1) classes

def map_ms (i : Nat) (class_ : ArgClass) : ArgSlot :=
  if i < MS_ARG_REGS.length then
    match class_ with
    | .Integer => .Reg (MS_ARG_REGS.getD i RAX)
    | .Float => .Reg (XMM_ARG_REGS.getD i RAX)
  else .Stack ((i - MS_ARG_REGS.length).toUInt32 * 8 + MS_SHADOW_SPACE_BYTES)

def map_args (classes : List ArgClass) : CallingConvention → List ArgSlot
  | .Sysv => map_sysv 0 0 0 classes
  | .Ms => classes.mapIdx map_ms

/-! ## The convention -/

/-- A place as the convention counts it, without a bound on the stack. -/
inductive Place where
  | reg (r : RegId)
  | stack (offset : Nat)

def ArgSlot.place : ArgSlot → Place
  | .Reg r => .reg r
  | .Stack offset => .stack offset.toNat

def bank : CallingConvention → ArgClass → List RegId
  | .Sysv, .Integer => ARG_REGS
  | .Sysv, .Float => XMM_ARG_REGS
  | .Ms, .Integer => MS_ARG_REGS
  | .Ms, .Float => XMM_ARG_REGS.take 4

/-- What an argument behind the arguments `before` takes from its bank. -/
def rank (before : List ArgClass) (c : ArgClass) : CallingConvention → Nat
  | .Sysv => before.count c
  | .Ms => before.length

/-- How many arguments find no register of their class left. -/
def spilled (classes : List ArgClass) : Nat :=
  (classes.count .Integer - 6) + (classes.count .Float - 8)

def stackOffset (before : List ArgClass) : CallingConvention → Nat
  | .Sysv => 8 * spilled before
  | .Ms => 32 + 8 * (before.length - 4)

def conventional (before : List ArgClass) (c : ArgClass) (cc : CallingConvention) : Place :=
  match (bank cc c)[rank before c cc]? with
  | some r => .reg r
  | none => .stack (stackOffset before cc)

/-- Every argument has the place of the convention, and no other argument has it. -/
structure Conventional (classes : List ArgClass) (cc : CallingConvention)
    (slots : List ArgSlot) : Prop where
  length : slots.length = classes.length
  distinct : slots.Nodup
  placed : ∀ i c, classes[i]? = some c →
    slots[i]?.map ArgSlot.place = some (conventional (classes.take i) c cc)

/-- The stack slots end within 4 GiB. -/
def Fits (classes : List ArgClass) (cc : CallingConvention) : Prop := stackOffset classes cc ≤ 2 ^ 32

/-! ## The slot of one argument -/

variable {before classes : List ArgClass} {c : ArgClass} {cc : CallingConvention}

/-- What the code computes for an argument behind `before`. -/
def slotOf (before : List ArgClass) (c : ArgClass) (cc : CallingConvention) : ArgSlot :=
  match (bank cc c)[rank before c cc]? with
  | some r => .Reg r
  | none => .Stack (stackOffset before cc).toUInt32

theorem slotOf_of_lt (h : rank before c cc < (bank cc c).length) :
    slotOf before c cc = .Reg (bank cc c)[rank before c cc] := by
  unfold slotOf
  rw [List.getElem?_eq_getElem h]

theorem slotOf_of_le (h : (bank cc c).length ≤ rank before c cc) :
    slotOf before c cc = .Stack (stackOffset before cc).toUInt32 := by
  unfold slotOf
  rw [List.getElem?_eq_none h]

/-- The counters behind the arguments `before`: the registers in use, and the stack slots. -/
theorem map_sysv_eq {i f s : Nat} (hi : i = min (before.count .Integer) 6)
    (hf : f = min (before.count .Float) 8) (hs : s = spilled before) :
    map_sysv i f s classes
      = classes.mapIdx fun i c => slotOf (before ++ classes.take i) c .Sysv := by
  induction classes generalizing before i f s with
  | nil => rfl
  | cons c classes ih =>
    have hoffset : s.toUInt32 * 8 = (stackOffset before .Sysv).toUInt32 := by
      change _ = (8 * spilled before).toUInt32
      rw [hs, Nat.mul_comm]
      exact (UInt32.ofNat_mul _ 8).symm
    have hrest : ∀ {i' f' s'}, i' = min ((before ++ [c]).count .Integer) 6 →
        f' = min ((before ++ [c]).count .Float) 8 → s' = spilled (before ++ [c]) →
        slotOf before c .Sysv :: map_sysv i' f' s' classes
          = (c :: classes).mapIdx fun i c' => slotOf (before ++ (c :: classes).take i) c' .Sysv := by
      intro i' f' s' hi' hf' hs'
      rw [ih hi' hf' hs', List.mapIdx_cons]
      simp
    unfold spilled at hs hrest
    simp only [List.count_append, List.count_singleton] at hrest
    cases c with
    | Integer =>
      by_cases hlt : rank before .Integer .Sysv < 6
      · obtain rfl : i = before.count .Integer := hi.trans (Nat.min_eq_left (Nat.le_of_lt hlt))
        rw [← @hrest (before.count .Integer + 1) f s, slotOf_of_lt hlt, map_sysv,
          List.getElem?_eq_getElem hlt]
        · rfl
        all_goals simp [rank] at hlt ⊢; omega
      · obtain rfl : i = 6 := hi.trans (Nat.min_eq_right (Nat.le_of_not_lt hlt))
        rw [← @hrest 6 f (s + 1), slotOf_of_le (Nat.le_of_not_lt hlt), map_sysv, hoffset]
        · rfl
        all_goals simp [rank] at hlt ⊢; omega
    | Float =>
      by_cases hlt : rank before .Float .Sysv < 8
      · obtain rfl : f = before.count .Float := hf.trans (Nat.min_eq_left (Nat.le_of_lt hlt))
        rw [← @hrest i (before.count .Float + 1) s, slotOf_of_lt hlt, map_sysv,
          List.getElem?_eq_getElem hlt]
        · rfl
        all_goals simp [rank] at hlt ⊢; omega
      · obtain rfl : f = 8 := hf.trans (Nat.min_eq_right (Nat.le_of_not_lt hlt))
        rw [← @hrest i 8 (s + 1), slotOf_of_le (Nat.le_of_not_lt hlt), map_sysv, hoffset]
        · rfl
        all_goals simp [rank] at hlt ⊢; omega

theorem map_ms_eq (before : List ArgClass) (c : ArgClass) :
    map_ms before.length c = slotOf before c .Ms := by
  by_cases hlt : before.length < 4
  · have hall : ∀ i < 4, (bank .Ms c)[i]?.map ArgSlot.Reg = some (map_ms i c) := by
      cases c <;> decide
    obtain ⟨r, hr, hslot⟩ := Option.map_eq_some_iff.mp (hall _ hlt)
    unfold slotOf rank
    rw [hr, ← hslot]
  · rw [slotOf_of_le (by cases c <;> exact Nat.le_of_not_lt hlt)]
    unfold map_ms
    rw [if_neg (show ¬before.length < MS_ARG_REGS.length from hlt)]
    change _ = ArgSlot.Stack (32 + 8 * (before.length - 4)).toUInt32
    rw [Nat.add_comm, Nat.mul_comm]
    exact congrArg ArgSlot.Stack ((UInt32.ofNat_add _ _).trans
      (congrArg (· + 32) (UInt32.ofNat_mul _ 8))).symm

/-- The slot of every argument, from the arguments before it. -/
theorem map_args_eq (classes : List ArgClass) (cc : CallingConvention) :
    map_args classes cc = classes.mapIdx fun i c => slotOf (classes.take i) c cc := by
  cases cc with
  | Sysv => exact @map_sysv_eq [] classes 0 0 0 rfl rfl rfl
  | Ms =>
    apply List.ext_getElem
    · simp [map_args]
    · intro i h₁ h₂
      have hlen : (classes.take i).length = i :=
        List.length_take_of_le (by simp at h₂; omega)
      simp only [map_args, List.getElem_mapIdx, ← map_ms_eq, hlen]

/-! ## The place of one argument -/

theorem stack_slot : (slotOf before c cc).place = conventional before c cc ↔
    (rank before c cc < (bank cc c).length ∨ stackOffset before cc < 2 ^ 32) := by
  unfold conventional
  rcases Nat.lt_or_ge (rank before c cc) (bank cc c).length with hlt | hge
  · rw [slotOf_of_lt hlt, List.getElem?_eq_getElem hlt]
    exact iff_of_true rfl (.inl hlt)
  · rw [slotOf_of_le hge, List.getElem?_eq_none hge, or_iff_right (Nat.not_lt.mpr hge)]
    change Place.stack _ = Place.stack _ ↔ _
    rw [Place.stack.injEq, Nat.toUInt32, UInt32.toNat_ofNat']
    exact ⟨fun h => h ▸ Nat.mod_lt _ (by decide), Nat.mod_eq_of_lt⟩

theorem bank_injective (cc : CallingConvention) {c c' : ArgClass} {k k' : Nat} {r : RegId}
    (h : (bank cc c)[k]? = some r) (h' : (bank cc c')[k']? = some r) : c = c' ∧ k = k' := by
  have hnodup : ∀ c, (bank cc c).Nodup := by
    cases cc <;> intro c <;> cases c <;> decide
  have hdisjoint : ∀ r ∈ bank cc .Integer, r ∉ bank cc .Float := by cases cc <;> decide
  by_cases hc : c = c'
  · subst hc
    exact ⟨rfl, (List.getElem?_inj (List.getElem?_eq_some_iff.mp h).1 (hnodup c)).mp (h.trans h'.symm)⟩
  · have hmem := List.mem_of_getElem? h
    have hmem' := List.mem_of_getElem? h'
    cases c with
    | Integer =>
      cases c' with
      | Integer => exact absurd rfl hc
      | Float => exact absurd hmem' (hdisjoint r hmem)
    | Float =>
      cases c' with
      | Integer => exact absurd hmem (hdisjoint r hmem')
      | Float => exact absurd rfl hc

variable {before' : List ArgClass} {c' : ArgClass}

theorem rank_lt (h : before ++ [c] <+: before') : rank before c cc < rank before' c cc := by
  obtain ⟨mid, rfl⟩ := h
  cases cc with
  | Sysv => simp [rank, List.count_append]
  | Ms => simp [rank]

/-- An argument takes a stack slot if its bank is used up. -/
theorem stackOffset_snoc (before : List ArgClass) (c : ArgClass) (cc : CallingConvention) :
    stackOffset (before ++ [c]) cc = stackOffset before cc +
      if (bank cc c).length ≤ rank before c cc then 8 else 0 := by
  have hlen : (bank .Sysv .Integer).length = 6 ∧ (bank .Sysv .Float).length = 8 ∧
    (bank .Ms .Integer).length = 4 ∧ (bank .Ms .Float).length = 4 := by decide
  cases cc <;> cases c <;>
    simp only [stackOffset, spilled, rank, hlen, List.count_append, List.count_singleton,
      List.length_append, List.length_singleton, beq_self_eq_true, if_true, reduceCtorEq, beq_iff_eq,
      if_false] <;> split_ifs <;> omega

theorem stackOffset_mono (h : before <+: before') : stackOffset before cc ≤ stackOffset before' cc := by
  obtain ⟨mid, rfl⟩ := h
  induction mid using List.reverseRecOn with
  | nil => simp
  | append_singleton mid c ih =>
    rw [← List.append_assoc, stackOffset_snoc]
    omega

theorem stackOffset_lt (h : before ++ [c] <+: before')
    (hfull : (bank cc c).length ≤ rank before c cc) :
    stackOffset before cc + 8 ≤ stackOffset before' cc := by
  have hmono := @stackOffset_mono _ cc _ h
  rwa [stackOffset_snoc, if_pos hfull] at hmono

/-- No two arguments have one place. -/
theorem conventional_ne (h : before ++ [c] <+: before') :
    conventional before c cc ≠ conventional before' c' cc := by
  intro heq
  unfold conventional at heq
  split at heq
  · rename_i r hr
    split at heq
    · rename_i r' hr'
      obtain rfl := Place.reg.inj heq
      obtain ⟨rfl, hrank⟩ := bank_injective cc hr hr'
      exact absurd hrank (Nat.ne_of_lt (rank_lt h))
    · cases heq
  · rename_i hfull
    split at heq
    · cases heq
    · have hlt := stackOffset_lt h (List.getElem?_eq_none_iff.mp hfull)
      have hsame := Place.stack.inj heq
      omega

/-! ## All arguments -/

theorem take_of_front {i : Nat} (h : classes[i]? = some c) : classes.take i ++ [c] <+: classes := by
  obtain ⟨hi, rfl⟩ := List.getElem?_eq_some_iff.mp h
  rw [List.take_append_getElem]
  exact List.take_prefix _ _

/-- Stack slots beyond 4 GiB are those of some arguments. -/
theorem exists_beyond (h : 2 ^ 32 < stackOffset classes cc) : ∃ i c, classes[i]? = some c ∧
    (bank cc c).length ≤ rank (classes.take i) c cc ∧ 2 ^ 32 ≤ stackOffset (classes.take i) cc := by
  induction classes using List.reverseRecOn with
  | nil => exact absurd h (by cases cc <;> decide)
  | append_singleton init c ih =>
    rcases Nat.lt_or_ge (2 ^ 32) (stackOffset init cc) with hlt | hge
    · obtain ⟨i, c', hc, hfull, hn⟩ := ih hlt
      have hi := (List.getElem?_eq_some_iff.mp hc).1
      refine ⟨i, c', ?_, ?_⟩
      · rw [List.getElem?_append_left hi, hc]
      · rw [List.take_append_of_le_length (Nat.le_of_lt hi)]
        exact ⟨hfull, hn⟩
    · have height : 8 ∣ stackOffset init cc := by
        cases cc
        · exact ⟨_, rfl⟩
        · exact ⟨4 + (init.length - 4), (Nat.mul_add 8 4 _).symm⟩
      rw [stackOffset_snoc] at h
      split_ifs at h with hfull
      · refine ⟨init.length, c, by simp, ?_⟩
        rw [List.take_left']
        · exact ⟨hfull, by omega⟩
        · rfl
      · omega

theorem fits_iff : (∀ i c, classes[i]? = some c →
    (bank cc c).length ≤ rank (classes.take i) c cc →
      stackOffset (classes.take i) cc < 2 ^ 32) ↔ Fits classes cc := by
  constructor
  · intro h
    apply Nat.le_of_not_lt
    intro hlt
    obtain ⟨i, c, hc, hfull, hle⟩ := exists_beyond hlt
    exact absurd (h i c hc hfull) (Nat.not_lt.mpr hle)
  · intro h i c hc hfull
    have hlt := stackOffset_lt (take_of_front hc) hfull
    unfold Fits at h
    omega

theorem placed_iff {i : Nat} (hc : classes[i]? = some c) :
    (map_args classes cc)[i]?.map ArgSlot.place = some (conventional (classes.take i) c cc) ↔
      ((bank cc c).length ≤ rank (classes.take i) c cc →
        stackOffset (classes.take i) cc < 2 ^ 32) := by
  rw [map_args_eq, List.getElem?_mapIdx, hc]
  change some (slotOf (classes.take i) c cc).place = _ ↔ _
  rw [Option.some.injEq, stack_slot, ← Nat.not_le, imp_iff_not_or]

theorem fits_of_conventional (h : Conventional classes cc (map_args classes cc)) :
    Fits classes cc :=
  fits_iff.mp fun i c hc => (placed_iff hc).mp (h.placed i c hc)

/-- Every argument has a slot of its own, the one that the convention gives it, exactly
if the stack slots fit into 4 GiB. -/
theorem arguments_have_their_own_slots_iff (classes : List ArgClass) (cc : CallingConvention) :
    Conventional classes cc (map_args classes cc) ↔ Fits classes cc := by
  refine ⟨fits_of_conventional, fun h => ?_⟩
  have hplaced : ∀ i c, classes[i]? = some c → (map_args classes cc)[i]?.map ArgSlot.place
      = some (conventional (classes.take i) c cc) :=
    fun i c hc => (placed_iff hc).mpr (fits_iff.mpr h i c hc)
  have hlen : (map_args classes cc).length = classes.length := by
    rw [map_args_eq, List.length_mapIdx]
  refine ⟨hlen, ?_, hplaced⟩
  rw [List.nodup_iff_getElem?_ne_getElem?]
  intro i j hij hj heq
  rw [hlen] at hj
  have hi := List.getElem?_eq_getElem (Nat.lt_trans hij hj)
  have hbefore : (classes.take j).take i ++ [classes[i]] <+: classes.take j := by
    apply take_of_front
    rw [List.getElem?_take_of_lt hij, hi]
  rw [List.take_take, Nat.min_eq_left (Nat.le_of_lt hij)] at hbefore
  apply @conventional_ne _ _ cc _ classes[j] hbefore
  rw [← Option.some.injEq, ← hplaced i _ hi, heq, hplaced j _ (List.getElem?_eq_getElem hj)]

theorem spilled_integers (n : Nat) : spilled (List.replicate n .Integer) = n - 6 := by
  unfold spilled
  rw [List.count_replicate_self, List.count_replicate, if_neg (by decide)]
  rfl

/-- With 2 ^ 29 + 7 integers the last one is back at offset 0. -/
theorem too_many_integers :
    ¬ ∀ classes cc, Conventional classes cc (map_args classes cc) := by
  intro h
  obtain ⟨n, hn⟩ : ∃ n, n = 2 ^ 29 + 7 := ⟨_, rfl⟩
  have hfits : 8 * spilled (List.replicate n .Integer) ≤ 2 ^ 32 :=
    fits_of_conventional (h (List.replicate n .Integer) .Sysv)
  rw [spilled_integers] at hfits
  omega

end paideia_as_ir.abi
