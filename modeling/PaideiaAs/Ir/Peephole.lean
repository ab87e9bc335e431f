-- The peephole pass (`opt/peephole.rs`): its seven rewritings in the order of the
-- catalogue, the scan over the table, and what each rewriting leaves different.
import PaideiaAs.Ir.StraightLine
import PaideiaAs.Ir.Tailcall

namespace paideia_as_ir.opt.peephole

open paideia_as_runtime paideia_as_ir.opt.schedule Footprint ByteMemory
open List (Sublist flatMap_cons mem_cons nil_sublist)

/-! ## The catalogue -/

inductive PeepholeRewrite where
  | RemoveNopMov
  | SimplifyZeroAdd
  | SimplifyZeroSub
  | StrengthReduceMul
  | StrengthReduceDiv
  | FuseLoadStore
  | CollapseJumpToNext
  | CombinePushPop
  | CompareToTest
  deriving DecidableEq

/-- What is to be done at the front of the remaining ids: `Remove` takes the first
`n` away. -/
inductive Pending where
  | Remove (n : Nat) (name : PeepholeRewrite)
  | ReplaceCmpWithTest
  | ReplaceImulWithShl (shift : Nat)
  | ReplacePushPopWithMov (dst src : RegId)

def try_remove_nop_mov : List Entry → Option Pending
  | inst :: _ =>
    match inst.instr.mnemonic, inst.instr.operands with
    | .Mov, [.Reg a, .Reg b] => if a = b then some (.Remove 1 .RemoveNopMov) else none
    | _, _ => none
  | _ => none

def try_simplify_zero_add : List Entry → Option Pending
  | inst :: _ =>
    match inst.instr.mnemonic, inst.instr.operands with
    | .Add, [_, .Imm64 imm] => if imm = 0 then some (.Remove 1 .SimplifyZeroAdd) else none
    | _, _ => none
  | _ => none

def try_simplify_zero_sub : List Entry → Option Pending
  | inst :: _ =>
    match inst.instr.mnemonic, inst.instr.operands with
    | .Sub, [_, .Imm64 imm] => if imm = 0 then some (.Remove 1 .SimplifyZeroSub) else none
    | _, _ => none
  | _ => none

/-- One bit is set. -/
def is_power_of_two (u : BitVec 64) : Bool := (List.range 64).countP u.getLsbD == 1

def trailing_zeros (u : BitVec 64) : Nat := (List.range 64).findIdx u.getLsbD

def try_strength_reduce_mul : List Entry → Option Pending
  | inst :: _ =>
    match inst.instr.mnemonic, inst.instr.operands with
    | .Imul, [.Reg dst, .Reg src, .Imm64 imm] =>
      if dst ≠ src ∨ imm ≤ 0 then none
      else if !is_power_of_two imm.toBitVec then none
      else
        let shift := trailing_zeros imm.toBitVec
        if shift = 0 ∨ 63 < shift then none else some (.ReplaceImulWithShl shift)
    | _, _ => none
  | _ => none

/-- The memory operands that a load and a store can be fused over. -/
def is_mem : Operand → Bool
  | .MemSib _ _ _ _ | .MemDisp _ => true
  | _ => false

def try_fuse_load_store : List Entry → Option Pending
  | inst0 :: inst1 :: _ =>
    match inst0.instr.mnemonic, inst0.instr.operands with
    | .Mov, [.Reg reg, mem] =>
      if is_mem mem then
        match inst1.instr.mnemonic, inst1.instr.operands with
        | .Mov, [mem1, .Reg r2] =>
          if is_mem mem1 ∧ r2 = reg ∧ mem = mem1 then some (.Remove 2 .FuseLoadStore) else none
        | _, _ => none
      else none
    | _, _ => none
  | _ => none

def try_combine_push_pop : List Entry → Option Pending
  | inst0 :: inst1 :: _ =>
    match inst0.instr.mnemonic, inst0.instr.operands, inst1.instr.mnemonic,
        inst1.instr.operands with
    | .Push, [.Reg src], .Pop, [.Reg dst] =>
      if src = ⟨4⟩ ∨ dst = ⟨4⟩ then none
      else if src = dst then some (.Remove 2 .CombinePushPop)
      else some (.ReplacePushPopWithMov dst src)
    | _, _, _, _ => none
  | _ => none

def zero_cond : Cond → Bool
  | .Eq | .Ne | .Zero | .NonZero => true
  | _ => false

def try_compare_to_test : List Entry → Option Pending
  | inst0 :: inst1 :: _ =>
    match inst0.instr.mnemonic, inst0.instr.operands with
    | .Cmp, [.Reg _, .Imm64 imm] =>
      if imm = 0 then
        match inst1.instr.mnemonic with
        | .Jcc cond => if zero_cond cond then some .ReplaceCmpWithTest else none
        | _ => none
      else none
    | _, _ => none
  | _ => none

/-- The first rewriting of the catalogue that fits. -/
def pending (remaining : List Entry) : Option Pending :=
  ((((((try_remove_nop_mov remaining).or (try_simplify_zero_add remaining)).or
    (try_simplify_zero_sub remaining)).or (try_strength_reduce_mul remaining)).or
    (try_fuse_load_store remaining)).or (try_combine_push_pop remaining)).or
    (try_compare_to_test remaining)

/-! ## The pass -/

namespace Pending

/-- How many entries of the table it takes. -/
def width : Pending → Nat
  | .Remove n _ => n
  | .ReplaceCmpWithTest => 1
  | .ReplaceImulWithShl _ => 1
  | .ReplacePushPopWithMov _ _ => 2

/-- What stays at the first of them. -/
def place (e : Entry) : Pending → Option Entry
  | .Remove _ _ => none
  | .ReplaceCmpWithTest =>
    match e.instr.operands with
    | .Reg r :: _ =>
      some { e with instr :=
        { e.instr with mnemonic := .Test, operands := e.instr.operands.set 1 (.Reg r) } }
    | _ => some e
  | .ReplaceImulWithShl shift =>
    match e.instr.operands with
    | .Reg dst :: _ =>
      some { e with instr :=
        { e.instr with mnemonic := .Shl, operands := [.Reg dst, .Imm64 (Int64.ofNat shift)] } }
    | _ => some e
  | .ReplacePushPopWithMov dst src =>
    some { e with instr := { e.instr with mnemonic := .Mov, operands := [.Reg dst, .Reg src] } }

end Pending

/-- A piece of the table with what is done to it. -/
structure Piece where
  pending : Option Pending
  old : List Entry
  new : Option Entry

/-- The loop over the ids; `skip` counts what is left of the last piece. -/
def scan : Nat → List Entry → List Piece
  | _, [] => []
  | skip + 1, _ :: rest => scan skip rest
  | 0, e :: rest =>
    match pending (e :: rest) with
    | some p => ⟨some p, (e :: rest).take p.width, p.place e⟩ :: scan (p.width - 1) rest
    | none => ⟨none, [e], some e⟩ :: scan 0 rest

def pieces (side_table : InstructionSideTable) : List Piece := scan 0 (tailcall.by_id side_table)

/-! ## What a piece can be -/

/-- The seven rewritings with what their entries are, and an entry that stays. -/
inductive Matched : Piece → Prop
  | kept {e : Entry} : Matched ⟨none, [e], some e⟩
  | nop_mov {e : Entry} {r : RegId} :
    e.instr.mnemonic = .Mov → e.instr.operands = [.Reg r, .Reg r] →
    Matched ⟨some (.Remove 1 .RemoveNopMov), [e], none⟩
  | zero_add {e : Entry} {dst : Operand} :
    e.instr.mnemonic = .Add → e.instr.operands = [dst, .Imm64 0] →
    Matched ⟨some (.Remove 1 .SimplifyZeroAdd), [e], none⟩
  | zero_sub {e : Entry} {dst : Operand} :
    e.instr.mnemonic = .Sub → e.instr.operands = [dst, .Imm64 0] →
    Matched ⟨some (.Remove 1 .SimplifyZeroSub), [e], none⟩
  | strength_mul {e : Entry} {r : RegId} {imm : Int64} {shift : Nat} :
    e.instr.mnemonic = .Imul → e.instr.operands = [.Reg r, .Reg r, .Imm64 imm] →
    imm.toBitVec = BitVec.twoPow 64 shift → 0 < shift → shift < 64 →
    Matched ⟨some (.ReplaceImulWithShl shift), [e], some { e with instr :=
        { e.instr with mnemonic := .Shl, operands := [.Reg r, .Imm64 (Int64.ofNat shift)] } }⟩
  | load_store {load store : Entry} {r : RegId} {mem : Operand} :
    load.instr.mnemonic = .Mov → load.instr.operands = [.Reg r, mem] →
    store.instr.mnemonic = .Mov → store.instr.operands = [mem, .Reg r] → is_mem mem = true →
    Matched ⟨some (.Remove 2 .FuseLoadStore), [load, store], none⟩
  | push_pop {push pop : Entry} {r : RegId} :
    push.instr.mnemonic = .Push → push.instr.operands = [.Reg r] →
    pop.instr.mnemonic = .Pop → pop.instr.operands = [.Reg r] → r ≠ abi.RSP →
    Matched ⟨some (.Remove 2 .CombinePushPop), [push, pop], none⟩
  | push_pop_mov {push pop : Entry} {dst src : RegId} :
    push.instr.mnemonic = .Push → push.instr.operands = [.Reg src] →
    pop.instr.mnemonic = .Pop → pop.instr.operands = [.Reg dst] → dst ≠ abi.RSP →
    Matched ⟨some (.ReplacePushPopWithMov dst src), [push, pop], some { push with instr :=
        { push.instr with mnemonic := .Mov, operands := [.Reg dst, .Reg src] } }⟩
  | cmp_test {e : Entry} {r : RegId} :
    e.instr.mnemonic = .Cmp → e.instr.operands = [.Reg r, .Imm64 0] →
    Matched ⟨some .ReplaceCmpWithTest, [e],
      some { e with instr := { e.instr with mnemonic := .Test, operands := [.Reg r, .Reg r] } }⟩

/-- A rewriting with what it does at the front of the remaining entries. -/
def Pending.at_front (p : Pending) (e : Entry) (rest : List Entry) : Piece :=
  ⟨some p, (e :: rest).take p.width, p.place e⟩

/-- The bit that is set is the first one. -/
theorem power_of_two {u : BitVec 64} (h : is_power_of_two u = true) :
    trailing_zeros u < 64 ∧ u = BitVec.twoPow 64 (trailing_zeros u) := by
  unfold is_power_of_two at h
  have hlen := beq_iff_eq.mp h
  rw [List.countP_eq_length_filter] at hlen
  obtain ⟨k, hk⟩ := List.length_eq_one_iff.mp hlen
  have honly : ∀ i, i < 64 → u.getLsbD i = true → i = k := by
    intro i hi hbit
    have hmem : i ∈ (List.range 64).filter u.getLsbD :=
      List.mem_filter.mpr ⟨List.mem_range.mpr hi, hbit⟩
    rw [hk] at hmem
    exact List.mem_singleton.mp hmem
  have hset : k ∈ (List.range 64).filter u.getLsbD := hk ▸ List.mem_singleton.mpr rfl
  obtain ⟨hrange, hbit⟩ := List.mem_filter.mp hset
  have hlt : trailing_zeros u < (List.range 64).length :=
    List.findIdx_lt_length_of_exists ⟨k, hrange, hbit⟩
  have hfound : u.getLsbD (trailing_zeros u) = true := by
    have hbit := List.findIdx_getElem (w := hlt)
    exact (congrArg u.getLsbD (List.getElem_range hlt)).symm.trans hbit
  rw [List.length_range] at hlt
  refine ⟨hlt, ?_⟩
  apply BitVec.eq_of_getLsbD_eq
  intro i hi
  rw [BitVec.getLsbD_twoPow]
  by_cases hi' : i = trailing_zeros u
  · subst hi'
    simp [hfound, hlt]
  · have hnot : u.getLsbD i = false := by
      rw [← Bool.not_eq_true]
      intro hbit'
      exact hi' ((honly i hi hbit').trans (honly _ hlt hfound).symm)
    simp [hnot, hlt, Ne.symm hi']

section

variable {e : Entry} {rest : List Entry} {p : Pending}

theorem nop_mov_matched (h : try_remove_nop_mov (e :: rest) = some p) :
    Matched (p.at_front e rest) := by
  unfold try_remove_nop_mov at h
  dsimp only at h
  split at h
  · rename_i hm ho
    split at h
    · rename_i heq
      subst heq
      cases h
      exact .nop_mov hm ho
    · cases h
  · cases h

theorem zero_add_matched (h : try_simplify_zero_add (e :: rest) = some p) :
    Matched (p.at_front e rest) := by
  unfold try_simplify_zero_add at h
  dsimp only at h
  split at h
  · rename_i hm ho
    split at h
    · rename_i heq
      subst heq
      cases h
      exact .zero_add hm ho
    · cases h
  · cases h

theorem zero_sub_matched (h : try_simplify_zero_sub (e :: rest) = some p) :
    Matched (p.at_front e rest) := by
  unfold try_simplify_zero_sub at h
  dsimp only at h
  split at h
  · rename_i hm ho
    split at h
    · rename_i heq
      subst heq
      cases h
      exact .zero_sub hm ho
    · cases h
  · cases h

theorem strength_mul_matched (h : try_strength_reduce_mul (e :: rest) = some p) :
    Matched (p.at_front e rest) := by
  unfold try_strength_reduce_mul at h
  dsimp only at h
  split at h
  · rename_i dst src imm hm ho
    split at h
    · cases h
    · rename_i hcond
      split at h
      · cases h
      · rename_i hpow
        split at h
        · cases h
        · rename_i hshift
          cases h
          have hdst : dst = src := by simpa using fun hne => hcond (.inl hne)
          subst hdst
          obtain ⟨hlt, htwo⟩ := power_of_two (by simpa using hpow)
          have hpiece := Matched.strength_mul hm ho htwo (by omega) hlt
          unfold Pending.at_front Pending.place
          rw [ho]
          exact hpiece
  · cases h

theorem load_store_matched (h : try_fuse_load_store (e :: rest) = some p) :
    Matched (p.at_front e rest) := by
  cases rest with
  | nil => cases h
  | cons store rest =>
    unfold try_fuse_load_store at h
    dsimp only at h
    split at h
    · rename_i hm ho
      split at h
      · rename_i hmem
        split at h
        · rename_i hm' ho'
          split at h
          · rename_i hcond
            obtain ⟨-, hreg, heq⟩ := hcond
            subst hreg heq
            cases h
            exact .load_store hm ho hm' ho' hmem
          · cases h
        · cases h
      · cases h
    · cases h

theorem push_pop_matched (h : try_combine_push_pop (e :: rest) = some p) :
    Matched (p.at_front e rest) := by
  cases rest with
  | nil => cases h
  | cons pop rest =>
    unfold try_combine_push_pop at h
    dsimp only at h
    split at h
    · rename_i hm ho hm' ho'
      split at h
      · cases h
      · rename_i hrsp
        rw [not_or] at hrsp
        split at h
        · rename_i heq
          subst heq
          cases h
          exact .push_pop hm ho hm' ho' hrsp.1
        · cases h
          exact .push_pop_mov hm ho hm' ho' hrsp.2
    · cases h

theorem cmp_test_matched (h : try_compare_to_test (e :: rest) = some p) :
    Matched (p.at_front e rest) := by
  cases rest with
  | nil => cases h
  | cons jcc rest =>
    unfold try_compare_to_test at h
    dsimp only at h
    split at h
    · rename_i hm ho
      split at h
      · rename_i hzero
        subst hzero
        split at h
        · split at h
          · cases h
            have hpiece := Matched.cmp_test hm ho
            unfold Pending.at_front Pending.place
            rw [ho]
            exact hpiece
          · cases h
        · cases h
      · cases h
    · cases h

theorem pending_matched (h : pending (e :: rest) = some p) : Matched (p.at_front e rest) := by
  unfold pending at h
  simp only [Option.or_eq_some_iff] at h
  rcases h with (((((h | ⟨-, h⟩) | ⟨-, h⟩) | ⟨-, h⟩) | ⟨-, h⟩) | ⟨-, h⟩) | ⟨-, h⟩
  · exact nop_mov_matched h
  · exact zero_add_matched h
  · exact zero_sub_matched h
  · exact strength_mul_matched h
  · exact load_store_matched h
  · exact push_pop_matched h
  · exact cmp_test_matched h

end

theorem Matched.width {piece : Piece} (h : Matched piece) :
    ∀ p, piece.pending = some p → ∃ k, p.width = k + 1 := by
  intro p hp
  cases h <;> cases hp <;> exact ⟨_, rfl⟩

theorem scan_matched {l : List Entry} : ∀ skip, ∀ piece ∈ scan skip l, Matched piece := by
  induction l with
  | nil =>
    intro skip piece h
    cases skip <;> cases h
  | cons e rest ih =>
    intro skip piece h
    cases skip with
    | succ skip => exact ih skip piece h
    | zero =>
      unfold scan at h
      split at h
      · rename_i p hp
        rcases mem_cons.mp h with rfl | h
        · exact pending_matched hp
        · exact ih _ piece h
      · rcases mem_cons.mp h with rfl | h
        · exact .kept
        · exact ih _ piece h

theorem scan_old {l : List Entry} : ∀ skip, (scan skip l).flatMap (·.old) = l.drop skip := by
  induction l with
  | nil =>
    intro skip
    rw [List.drop_nil]
    cases skip <;> rfl
  | cons e rest ih =>
    intro skip
    cases skip with
    | succ skip => exact ih skip
    | zero =>
      unfold scan
      split
      · rename_i p hp
        obtain ⟨k, hk⟩ := (pending_matched hp).width p rfl
        rw [flatMap_cons, ih, hk]
        exact congrArg (e :: ·) (List.take_append_drop k rest)
      · rw [flatMap_cons, ih]
        rfl

/-! ## The table that the pass leaves -/

/-- A piece keeps an id that it has, at most. -/
theorem Matched.ids {piece : Piece} (h : Matched piece) :
    (piece.new.toList.map (·.id)).Sublist (piece.old.map (·.id)) := by
  cases h with
  | kept => exact Sublist.refl _
  | nop_mov => exact nil_sublist _
  | zero_add => exact nil_sublist _
  | zero_sub => exact nil_sublist _
  | strength_mul => exact Sublist.refl _
  | load_store => exact nil_sublist _
  | push_pop => exact nil_sublist _
  | push_pop_mov => exact .cons_cons _ (.cons _ .slnil)
  | cmp_test => exact Sublist.refl _

theorem filterMap_new (ps : List Piece) : ps.filterMap (·.new) = ps.flatMap (·.new.toList) := by
  induction ps with
  | nil => rfl
  | cons piece ps ih =>
    rw [flatMap_cons, ← ih]
    cases h : piece.new with
    | none => rw [List.filterMap_cons_none h, Option.toList_none, List.nil_append]
    | some e => rw [List.filterMap_cons_some h, Option.toList_some, List.singleton_append]

theorem pieces_ids (side_table : InstructionSideTable) :
    (((pieces side_table).filterMap (·.new)).map (·.id)).Sublist
      ((tailcall.by_id side_table).map (·.id)) := by
  have hmatched : ∀ piece ∈ pieces side_table, Matched piece := scan_matched 0
  have hold := scan_old (l := tailcall.by_id side_table) 0
  rw [List.drop_zero] at hold
  rw [← hold, filterMap_new, List.map_flatMap, List.map_flatMap]
  change ∀ piece ∈ pieces side_table, Matched piece at hmatched
  change ((pieces side_table).flatMap _).Sublist ((pieces side_table).flatMap _)
  generalize pieces side_table = ps at hmatched ⊢
  induction ps with
  | nil => exact .slnil
  | cons piece ps ih =>
    rw [flatMap_cons, flatMap_cons]
    apply Sublist.append
    · exact (hmatched piece (.head _)).ids
    · exact ih fun p hp => hmatched p (.tail _ hp)

def apply (side_table : InstructionSideTable) : InstructionSideTable where
  entries := (pieces side_table).filterMap (·.new)
  nodup := (pieces_ids side_table).nodup (tailcall.by_id_nodup side_table)

/-- In the order of the ids, the new table is what stands in the pieces' places. -/
theorem by_id_apply (side_table : InstructionSideTable) :
    tailcall.by_id (apply side_table) = (pieces side_table).filterMap (·.new) := by
  apply List.mergeSort_of_pairwise
  have hsorted := tailcall.by_id_sorted side_table
  have hids : ((tailcall.by_id side_table).map (·.id)).Pairwise
      fun a b => a.val.toNat < b.val.toNat := List.pairwise_map.mpr hsorted
  have hnew := List.pairwise_map.mp (hids.sublist (pieces_ids side_table))
  exact hnew.imp fun hlt => decide_eq_true hlt.le

end paideia_as_ir.opt.peephole
