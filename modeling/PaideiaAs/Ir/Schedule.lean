-- Instruction scheduling (`opt/schedule.rs`): the classes of the mnemonics, the
-- heuristic that moves an instruction of higher latency before its neighbour, and
-- the emission orders that the pass gives out.
import Mathlib.Data.List.Sort
import Mathlib.Data.Prod.Lex
import PaideiaAs.Ir.Node
import PaideiaAs.Ir.Processor

namespace paideia_as_ir.opt.schedule

open paideia_as_runtime Footprint
open Assoc (keys lookup_cons_ite)
open List (append_assoc filterMap_cons length_append map_cons map_map mem_cons mem_map_of_mem
  nodup_cons zipIdx_cons)

/-! ## Classes -/

inductive InstructionClass where
  | AluReg
  | LoadL1
  | LoadHigher
  | Store
  | Branch
  | AtomicLocked
  | Other
  deriving DecidableEq

namespace InstructionClass

def latency : InstructionClass → Nat
  | .AluReg => 1
  | .LoadL1 => 4
  | .LoadHigher => 12
  | .Store => 1
  | .Branch => 1
  | .AtomicLocked => 1
  | .Other => 3

def is_barrier : InstructionClass → Bool
  | .AtomicLocked | .Branch => true
  | _ => false

end InstructionClass

def classify_mnemonic : Mnemonic → InstructionClass
  | .Mov | .Movzx | .MovSized _ | .Movsx | .Lea => .AluReg
  | .Add | .Sub | .Cmp | .CmpSized _ | .Test | .Adc _ | .Sbb _ | .Popcnt _ | .Crc32 _ | .Bsf _
  | .Bsr _ | .Tzcnt _ => .AluReg
  | .Not | .Bswap | .Bswap32 | .Inc | .Dec => .AluReg
  | .Push | .Pop | .Pushfq | .Popfq | .Int3 => .Other
  | .Shl | .Shr | .Sar | .Rol _ | .Ror _ | .Imul | .Div | .Idiv | .Mul | .And | .Or | .Xor
  | .Bt _ | .Bts _ | .Btr _ | .Btc _ => .AluReg
  | .Setcc _ => .AluReg
  | .Jcc _ | .Jmp | .Call | .Ret => .Branch
  | .RepMovsb | .RepStosb | .RepMovsq => .Other
  | .Xchg | .LockCmpxchg | .LockCmpxchg32 | .LockCmpxchg16b | .LockXadd _ | .LockAdd _
  | .LockSub _ | .LockInc _ | .LockBts _ | .LockBtr _ | .LockBtc _ | .LockAnd _ | .LockOr _
  | .LockXor _ | .Mfence | .Sfence | .Lfence => .AtomicLocked
  | .Lgdt | .Lidt | .Ltr | .MovCr _ | .MovDr _ | .Wrmsr | .Rdmsr | .In _ | .Out _ | .Iret | .Iretq
  | .Sysret | .Syscall | .Swapgs | .Cpuid | .Ud2 | .Cli | .Cld | .Sti | .Std | .Hlt | .Int | .Nop
  | .Endbr64 | .Endbr32 | .RepStosq | .FarJmp | .Invlpg | .Invpcid | .Rdtsc | .Fxsave | .Fxrstor
  | .Xsaveopt | .Xrstor | .Xgetbv | .Xsetbv | .Movnti _ | .Wbinvd | .Invd | .Clflush
  | .Clflushopt | .Prefetchnta | .Prefetcht0 | .Prefetcht1 | .Prefetcht2 | .Pause | .Vpxor
  | .Vpcmpeqb | .Vpmovmskb | .Vmovdqu _ => .Other
  | .MovSd | .MovSs | .AddSd | .AddSs | .SubSd | .SubSs | .MulSd | .MulSs | .DivSd | .DivSs
  | .Sqrtsd | .Sqrtss | .Ucomisd | .Ucomiss | .Comisd | .Comiss | .Cvtsi2sd | .Cvtsi2ss
  | .Cvttsd2si | .Cvttss2si | .MovdBitcast _ | .MovqBitcast _ => .AluReg

/-! ## The heuristic -/

/-- The test for a swap: neither is a barrier, and the next takes longer. -/
def trades (class_ next : InstructionClass) : Bool :=
  !class_.is_barrier && !next.is_barrier && next.latency > class_.latency

/-- A barrier is flushed on its own: the flush stops at the first barrier, which
is the one that it starts from. -/
def schedule_block_impl : List (Nat × InstructionClass) → List Nat
  | [] => []
  | [(idx, _)] => [idx]
  | (idx, class_) :: (next_idx, next) :: rest =>
    if trades class_ next then next_idx :: idx :: schedule_block_impl rest
    else idx :: schedule_block_impl ((next_idx, next) :: rest)

/-- An entry of the instruction table. -/
structure Entry where
  id : IrNodeId
  emission_order : Nat
  instr : Instruction

/-- The instruction table: one entry for each node. -/
structure InstructionSideTable where
  entries : List Entry
  nodup : (entries.map (·.id)).Nodup

def schedule_block (side_table : InstructionSideTable) (nodes : List IrNodeId) : List Nat :=
  schedule_block_impl (nodes.zipIdx.filterMap fun node =>
    (side_table.entries.find? (·.id = node.1)).map fun e =>
      (node.2, classify_mnemonic e.instr.mnemonic))

/-! ## The pass -/

/-- The sort key of the encoder: the emission order, then the node id. -/
def Entry.key (e : Entry) : Lex (Nat × Nat) := toLex (e.emission_order, e.id.val.toNat)

/-- The entries as the encoder emits them. -/
def emitted (side_table : InstructionSideTable) : List Entry :=
  side_table.entries.mergeSort fun a b => decide (a.key ≤ b.key)

def permutation (side_table : InstructionSideTable) : List Nat :=
  schedule_block side_table ((emitted side_table).map (·.id))

def set_order (entries : List Entry) (id : IrNodeId) (new_order : Nat) : List Entry :=
  entries.map fun e => if e.id = id then { e with emission_order := new_order } else e

/-- The instruction that goes to `dest_idx` takes the emission order that was there. -/
def update (sorted : List Entry) (src_idx dest_idx : Nat) : Option (IrNodeId × Nat) :=
  if dest_idx = src_idx then none
  else do
    let src ← sorted[src_idx]?
    let dest ← sorted[dest_idx]?
    return (src.id, dest.emission_order)

/-- The emission orders to set, for destinations from `start` on. -/
def updates (sorted : List Entry) (permutation : List Nat) (start : Nat) : List (IrNodeId × Nat) :=
  (permutation.zipIdx start).filterMap fun node => update sorted node.1 node.2

def set_orders (entries : List Entry) (us : List (IrNodeId × Nat)) : List Entry :=
  us.foldl (fun entries u => set_order entries u.1 u.2) entries

theorem set_order_ids (entries : List Entry) (id : IrNodeId) (new_order : Nat) :
    (set_order entries id new_order).map (·.id) = entries.map (·.id) := by
  unfold set_order
  rw [map_map]
  apply List.map_congr_left
  intro e _
  dsimp only [Function.comp_apply]
  split
  · rfl
  · rfl

theorem set_orders_ids (us : List (IrNodeId × Nat)) :
    ∀ entries, (set_orders entries us).map (·.id) = entries.map (·.id) := by
  induction us with
  | nil =>
    intro entries
    rfl
  | cons u us ih =>
    intro entries
    exact (ih (set_order entries u.1 u.2)).trans (set_order_ids entries u.1 u.2)

def apply (side_table : InstructionSideTable) : Bool × InstructionSideTable :=
  if side_table.entries.isEmpty then (false, side_table)
  else if (permutation side_table).zipIdx.all (fun node => node.2 = node.1) then (false, side_table)
  else
    let us := updates (emitted side_table) (permutation side_table) 0
    (true, ⟨set_orders side_table.entries us, (set_orders_ids us _).symm ▸ side_table.nodup⟩)

/-! ## The order of the encoder -/

theorem IrNodeId.toNat_inj {a b : IrNodeId} (h : a.val.toNat = b.val.toNat) : a = b := by
  cases a
  cases b
  cases UInt32.toNat_inj.mp h
  rfl

theorem key_inj {a b : Entry} (h : a.key = b.key) : a.id = b.id :=
  IrNodeId.toNat_inj (congrArg Prod.snd h)

variable (side_table : InstructionSideTable)

theorem emitted_perm : (emitted side_table).Perm side_table.entries :=
  List.mergeSort_perm ..

theorem emitted_ids_nodup : ((emitted side_table).map (·.id)).Nodup :=
  ((emitted_perm side_table).map _).nodup_iff.mpr side_table.nodup

/-- The keys go up: no two nodes share one. -/
theorem emitted_sorted : (emitted side_table).Pairwise fun a b => a.key < b.key := by
  have hle : (emitted side_table).Pairwise fun a b => a.key ≤ b.key := by
    have h : (emitted side_table).Pairwise fun a b => decide (a.key ≤ b.key) = true := by
      apply List.pairwise_mergeSort
      · intro a b c hab hbc
        exact decide_eq_true ((of_decide_eq_true hab).trans (of_decide_eq_true hbc))
      · intro a b
        simpa using le_total a.key b.key
    exact h.imp of_decide_eq_true
  have hne := List.pairwise_map.mp (emitted_ids_nodup side_table)
  apply (hle.and hne).imp
  rintro a b ⟨hle, hne⟩
  exact lt_of_le_of_ne hle fun heq => hne (key_inj heq)

/-! ## The schedule -/

/-- The entries with the pairs turned round. -/
def turned : List Entry → List Entry
  | [] => []
  | [x] => [x]
  | x :: y :: rest =>
    if trades (classify_mnemonic x.instr.mnemonic) (classify_mnemonic y.instr.mnemonic) then
      y :: x :: turned rest
    else x :: turned (y :: rest)

/-- What holds of the pairs that are turned round: an instruction that is no barrier
with the next, where that is none either and its class has the higher latency. -/
def TradesAll (R : Entry → Entry → Prop) : List Entry → Prop
  | [] => True
  | [_] => True
  | x :: y :: rest =>
    if trades (classify_mnemonic x.instr.mnemonic) (classify_mnemonic y.instr.mnemonic) then
      R x y ∧ TradesAll R rest
    else TradesAll R (y :: rest)

theorem turned_perm (l : List Entry) : (turned l).Perm l := by
  fun_induction turned l with
  | case1 => exact .refl _
  | case2 x => exact .refl _
  | case3 x y rest h ih => exact ((ih.cons x).cons y).trans (.swap ..)
  | case4 x y rest h ih => exact ih.cons x

/-- The classes of the entries, with their places from `start` on. -/
def classes (start : Nat) (l : List Entry) : List (Nat × InstructionClass) :=
  (l.zipIdx start).map fun e => (e.2, classify_mnemonic e.1.instr.mnemonic)

theorem classes_cons (start : Nat) (x : Entry) (l : List Entry) : classes start (x :: l)
      = (start, classify_mnemonic x.instr.mnemonic) :: classes (start + 1) l := rfl

theorem find?_id {entries : List Entry} (hnodup : (entries.map (·.id)).Nodup) {e : Entry}
    (he : e ∈ entries) : entries.find? (·.id = e.id) = some e := by
  induction entries with
  | nil => cases he
  | cons x rest ih =>
    rw [map_cons, nodup_cons] at hnodup
    rcases mem_cons.mp he with rfl | he
    · simp
    · have hne : x.id ≠ e.id := fun heq => hnodup.1 (heq ▸ mem_map_of_mem he)
      rw [List.find?_cons_of_neg (by simpa using hne)]
      exact ih hnodup.2 he

theorem permutation_eq :
    permutation side_table = schedule_block_impl (classes 0 (emitted side_table)) := by
  unfold permutation schedule_block classes
  congr 1
  rw [List.zipIdx_map, List.filterMap_map, ← List.filterMap_eq_map]
  apply List.filterMap_congr
  rintro ⟨e, i⟩ hmem
  have he : e ∈ side_table.entries :=
    (emitted_perm side_table).mem_iff.mp (List.fst_mem_of_mem_zipIdx hmem)
  simp [find?_id side_table.nodup he]

theorem schedule_turned (l : List Entry) : ∀ pre : List Entry,
    (schedule_block_impl (classes pre.length l)).filterMap (fun i => (pre ++ l)[i]?) = turned l := by
  fun_induction turned l with
  | case1 =>
    intro pre
    rfl
  | case2 x =>
    intro pre
    simp [classes, schedule_block_impl]
  | case3 x y rest h ih =>
    intro pre
    have ih := ih (pre ++ [x, y])
    rw [append_assoc, length_append] at ih
    rw [classes_cons, classes_cons, schedule_block_impl, if_pos h, filterMap_cons, filterMap_cons]
    have hx : (pre ++ x :: y :: rest)[pre.length]? = some x := by simp
    have hy : (pre ++ x :: y :: rest)[pre.length + 1]? = some y := by simp
    rw [hx, hy]
    exact congrArg (y :: x :: ·) ih
  | case4 x y rest h ih =>
    intro pre
    have ih := ih (pre ++ [x])
    rw [append_assoc, length_append] at ih
    rw [classes_cons, classes_cons, schedule_block_impl, if_neg h, filterMap_cons]
    have hx : (pre ++ x :: y :: rest)[pre.length]? = some x := by simp
    rw [hx]
    exact congrArg (x :: ·) ih

/-! ## The emission orders after the pass -/

/-- The updates of the pairs that are turned round. -/
def exchanged : List Entry → List (IrNodeId × Nat)
  | [] => []
  | [_] => []
  | x :: y :: rest =>
    if trades (classify_mnemonic x.instr.mnemonic) (classify_mnemonic y.instr.mnemonic) then
      (y.id, x.emission_order) :: (x.id, y.emission_order) :: exchanged rest
    else exchanged (y :: rest)

/-- Each entry with its neighbour where the two are turned round, with itself where
it is in no such pair. -/
def withPartners : List Entry → List (Entry × Entry)
  | [] => []
  | [x] => [(x, x)]
  | x :: y :: rest =>
    if trades (classify_mnemonic x.instr.mnemonic) (classify_mnemonic y.instr.mnemonic) then
      (x, y) :: (y, x) :: withPartners rest
    else (x, x) :: withPartners (y :: rest)

theorem withPartners_snd (l : List Entry) : (withPartners l).map Prod.snd = turned l := by
  fun_induction turned l with
  | case1 => rfl
  | case2 x => rfl
  | case3 x y rest h ih => rw [withPartners, if_pos h, map_cons, map_cons, ih]
  | case4 x y rest h ih => rw [withPartners, if_neg h, map_cons, ih]

theorem update_self (sorted : List Entry) (i : Nat) : update sorted i i = none := if_pos rfl

theorem update_of_ne {sorted : List Entry} {src_idx dest_idx : Nat} {src dest : Entry}
    (hne : dest_idx ≠ src_idx) (hsrc : sorted[src_idx]? = some src)
    (hdest : sorted[dest_idx]? = some dest) :
    update sorted src_idx dest_idx = some (src.id, dest.emission_order) := by
  unfold update
  rw [if_neg hne, hsrc, hdest]
  rfl

theorem updates_eq (l : List Entry) : ∀ pre : List Entry,
    updates (pre ++ l) (schedule_block_impl (classes pre.length l)) pre.length = exchanged l := by
  fun_induction exchanged l with
  | case1 =>
    intro pre
    rfl
  | case2 x =>
    intro pre
    simp [classes, schedule_block_impl, updates, update_self]
  | case3 x y rest h ih =>
    intro pre
    have ih := ih (pre ++ [x, y])
    rw [append_assoc, length_append] at ih
    have hx : (pre ++ x :: y :: rest)[pre.length]? = some x := by simp
    have hy : (pre ++ x :: y :: rest)[pre.length + 1]? = some y := by simp
    unfold updates at ih ⊢
    rw [classes_cons, classes_cons, schedule_block_impl, if_pos h, zipIdx_cons,
      zipIdx_cons, filterMap_cons, filterMap_cons, update_of_ne (by omega) hy hx,
      update_of_ne (by omega) hx hy]
    exact congrArg ((y.id, x.emission_order) :: (x.id, y.emission_order) :: ·) ih
  | case4 x y rest h ih =>
    intro pre
    have ih := ih (pre ++ [x])
    rw [append_assoc, length_append] at ih
    unfold updates at ih ⊢
    rw [classes_cons, classes_cons, schedule_block_impl, if_neg h, zipIdx_cons,
      filterMap_cons, update_self]
    exact ih

theorem exchanged_ids_sublist (l : List Entry) : ∀ id ∈ keys (exchanged l), id ∈ l.map (·.id) := by
  fun_induction exchanged l with
  | case1 => simp [keys]
  | case2 x => simp [keys]
  | case3 x y rest h ih =>
    intro id hid
    unfold keys at hid ih
    simp only [map_cons, mem_cons] at hid ⊢
    rcases hid with hid | hid | hid
    · exact .inr (.inl hid)
    · exact .inl hid
    · exact .inr (.inr (ih id hid))
  | case4 x y rest h ih =>
    intro id hid
    rw [map_cons]
    exact .tail _ (ih id hid)

theorem exchanged_nodup (l : List Entry) (hnodup : (l.map (·.id)).Nodup) :
    (keys (exchanged l)).Nodup := by
  fun_induction exchanged l with
  | case1 => exact List.nodup_nil
  | case2 x => exact List.nodup_nil
  | case3 x y rest h ih =>
    simp only [map_cons, nodup_cons, mem_cons, not_or] at hnodup
    obtain ⟨⟨hxy, hx⟩, hy, hrest⟩ := hnodup
    have hin := exchanged_ids_sublist rest
    unfold keys at ih hin ⊢
    simp only [map_cons, nodup_cons, mem_cons, not_or]
    exact ⟨⟨Ne.symm hxy, fun h => hy (hin _ h)⟩, fun h => hx (hin _ h), ih hrest⟩
  | case4 x y rest h ih =>
    rw [map_cons, nodup_cons] at hnodup
    exact ih hnodup.2

/-- The order of an entry after updates of different nodes. -/
def orderAfter (us : List (IrNodeId × Nat)) (e : Entry) : Nat :=
  (us.lookup e.id).getD e.emission_order

theorem set_orders_eq {us : List (IrNodeId × Nat)} : ∀ {entries : List Entry}, (keys us).Nodup →
    set_orders entries us = entries.map fun e => { e with emission_order := orderAfter us e } := by
  induction us with
  | nil =>
    intro entries _
    exact (List.map_id' entries).symm
  | cons u us ih =>
    obtain ⟨id, o⟩ := u
    intro entries hnodup
    unfold keys at hnodup
    rw [map_cons, nodup_cons] at hnodup
    have ih := @ih (set_order entries id o) hnodup.2
    refine Eq.trans ih ?_
    unfold set_order
    rw [map_map]
    apply List.map_congr_left
    intro e _
    unfold orderAfter
    dsimp only [Function.comp_apply]
    rw [lookup_cons_ite]
    split
    · rename_i heq
      rw [Assoc.lookup_none.mpr (heq ▸ hnodup.1)]
      rfl
    · rfl

theorem orderAfter_of_not_mem {us : List (IrNodeId × Nat)} {e : Entry}
    (h : e.id ∉ keys us) : orderAfter us e = e.emission_order := by
  unfold orderAfter
  rw [Assoc.lookup_none.mpr h]
  rfl

/-- The pass gives each entry the emission order of its partner. -/
theorem withPartners_eq (l : List Entry) (hnodup : (l.map (·.id)).Nodup) :
    (withPartners l).map (fun a => (a.1, a.2.emission_order)) =
      l.map fun e => (e, orderAfter (exchanged l) e) := by
  fun_induction withPartners l with
  | case1 => rfl
  | case2 x => rfl
  | case3 x y rest h ih =>
    simp only [map_cons, nodup_cons, mem_cons, not_or] at hnodup
    obtain ⟨⟨hxy, hx⟩, hy, hrest⟩ := hnodup
    rw [exchanged, if_pos h, map_cons, map_cons, map_cons, map_cons, ih hrest]
    congr 1
    · simp [orderAfter, lookup_cons_ite, hxy]
    congr 1
    · simp [orderAfter]
    apply List.map_congr_left
    intro e he
    have hne : e.id ∈ rest.map (·.id) := mem_map_of_mem he
    have hey : e.id ≠ y.id := fun heq => hy (heq ▸ hne)
    have hex : e.id ≠ x.id := fun heq => hx (heq ▸ hne)
    unfold orderAfter
    rw [lookup_cons_ite, if_neg hey, lookup_cons_ite, if_neg hex]
  | case4 x y rest h ih =>
    rw [map_cons, nodup_cons] at hnodup
    rw [exchanged, if_neg h, map_cons, map_cons, ih hnodup.2]
    congr 2
    apply (orderAfter_of_not_mem ?_).symm
    intro hmem
    exact hnodup.1 (exchanged_ids_sublist _ _ hmem)

theorem partner_mem {l : List Entry} {a : Entry × Entry} (h : a ∈ withPartners l) : a.2 ∈ l := by
  have hturned : a.2 ∈ turned l := withPartners_snd l ▸ mem_map_of_mem h
  exact (turned_perm l).mem_iff.mp hturned

/-- The orders of the partners go up, but for the two of a pair. -/
theorem partners_rise {R : Entry → Entry → Prop} {l : List Entry}
    (hsorted : l.Pairwise fun a b => a.emission_order ≤ b.emission_order) (hR : TradesAll R l) :
    (withPartners l).Pairwise fun a b =>
      a.2.emission_order ≤ b.2.emission_order ∨ R a.1 b.1 := by
  fun_induction withPartners l with
  | case1 => exact .nil
  | case2 x => exact List.pairwise_singleton ..
  | case3 x y rest h ih =>
    rw [TradesAll, if_pos h] at hR
    rw [List.pairwise_cons, List.pairwise_cons] at hsorted
    obtain ⟨hx, hy, hrest⟩ := hsorted
    refine .cons ?_ (.cons ?_ (ih hrest hR.2))
    · intro b hb
      rcases mem_cons.mp hb with rfl | hb
      · exact .inr hR.1
      · exact .inl (hy _ (partner_mem hb))
    · exact fun b hb => .inl (hx _ (.tail _ (partner_mem hb)))
  | case4 x y rest h ih =>
    rw [TradesAll, if_neg h] at hR
    rw [List.pairwise_cons] at hsorted
    exact .cons (fun b hb => .inl (hsorted.1 _ (partner_mem hb))) (ih hsorted.2 hR)

/-! ## What is turned round -/

variable {α : Type} {a : α} {l : List α} {b : α}

theorem pair_sublist_cons {x : α} :
    [a, b].Sublist (x :: l) ↔ (a = x ∧ b ∈ l) ∨ [a, b].Sublist l := by
  rw [List.sublist_cons_iff]
  constructor
  · rintro (h | ⟨r, hr, hsub⟩)
    · exact .inr h
    · cases hr
      exact .inl ⟨rfl, List.singleton_sublist.mp hsub⟩
  · rintro (⟨rfl, hb⟩ | h)
    · exact .inr ⟨[b], rfl, List.singleton_sublist.mpr hb⟩
    · exact .inl h

theorem mem_of_pair (h : [a, b].Sublist l) : a ∈ l ∧ b ∈ l :=
  ⟨h.subset (.head _), h.subset (.tail _ (.head _))⟩

/-- In a list that goes up a pair stands as its keys do. -/
theorem pair_iff_lt {β : Type} [LinearOrder β] {f : α → β}
    (hsorted : l.Pairwise fun a b => f a < f b) (ha : a ∈ l) (hb : b ∈ l) :
    [a, b].Sublist l ↔ f a < f b := by
  induction l with
  | nil => cases ha
  | cons x l ih =>
    rw [List.pairwise_cons] at hsorted
    rw [pair_sublist_cons]
    rcases mem_cons.mp ha with rfl | hal
    · rcases mem_cons.mp hb with rfl | hbl
      · constructor
        · rintro (⟨-, h⟩ | h)
          · exact hsorted.1 _ h
          · exact hsorted.1 _ (mem_of_pair h).1
        · intro h
          exact absurd h (lt_irrefl _)
      · exact iff_of_true (.inl ⟨rfl, hbl⟩) (hsorted.1 b hbl)
    · rcases mem_cons.mp hb with rfl | hbl
      · constructor
        · rintro (⟨-, h⟩ | h)
          · exact absurd (hsorted.1 _ h) (lt_irrefl _)
          · exact hsorted.1 _ (mem_of_pair h).2 |>.false.elim
        · intro h
          exact absurd h (lt_asymm (hsorted.1 a hal))
      · rw [← ih hsorted.2 hal hbl]
        refine or_iff_right_of_imp ?_
        rintro ⟨rfl, -⟩
        exact absurd (hsorted.1 a hal) (lt_irrefl _)

theorem turned_pairs (R : Entry → Entry → Prop) (l : List Entry) (hnodup : l.Nodup) :
    (∀ a b, [a, b].Sublist l → [b, a].Sublist (turned l) → R a b) ↔ TradesAll R l := by
  fun_induction turned l with
  | case1 => exact iff_of_true (fun a b h => by cases h) trivial
  | case2 x =>
    refine iff_of_true (fun a b h => ?_) trivial
    rw [pair_sublist_cons] at h
    rcases h with ⟨-, h⟩ | h
    · cases h
    · cases h
  | case3 x y rest h ih =>
    simp only [nodup_cons, mem_cons, not_or] at hnodup
    obtain ⟨⟨hxy, hx⟩, hy, hrest⟩ := hnodup
    have hmem : ∀ {e}, e ∈ turned rest ↔ e ∈ rest := (turned_perm rest).mem_iff
    rw [TradesAll, if_pos h, ← ih hrest]
    constructor
    · intro hall
      constructor
      · apply hall x y
        all_goals
          rw [pair_sublist_cons]
          exact .inl ⟨rfl, List.mem_cons_self ..⟩
      · intro a b hab hba
        exact hall a b ((hab.cons y).cons x) ((hba.cons x).cons y)
    · rintro ⟨hR, hall⟩ a b hab hba
      simp only [pair_sublist_cons, mem_cons, hmem] at hab hba
      have hin := fun h : [b, a].Sublist (turned rest) => (mem_of_pair h).imp hmem.mp hmem.mp
      rcases hba with ⟨rfl, rfl | ha⟩ | ⟨rfl, ha⟩ | hba
      · exact hR
      · -- `a` of the rest, before `y`
        rcases hab with ⟨rfl, -⟩ | ⟨rfl, -⟩ | hab
        · exact absurd ha hx
        · exact absurd ha hy
        · exact absurd (mem_of_pair hab).2 hy
      · rcases hab with ⟨rfl, hb⟩ | ⟨rfl, hb⟩ | hab
        · exact absurd ha hx
        · exact absurd ha hy
        · exact absurd (mem_of_pair hab).2 hx
      · rcases hab with ⟨rfl, -⟩ | ⟨rfl, -⟩ | hab
        · exact absurd (hin hba).2 hx
        · exact absurd (hin hba).2 hy
        · exact hall a b hab hba
  | case4 x y rest h ih =>
    rw [nodup_cons] at hnodup
    have hmem : ∀ {e}, e ∈ turned (y :: rest) ↔ e ∈ y :: rest := (turned_perm _).mem_iff
    rw [TradesAll, if_neg h, ← ih hnodup.2]
    constructor
    · intro hall a b hab hba
      exact hall a b (hab.cons x) (hba.cons x)
    · intro hall a b hab hba
      rw [pair_sublist_cons] at hab hba
      rcases hba with ⟨rfl, -⟩ | hba
      · rcases hab with ⟨rfl, hb⟩ | hab
        · exact absurd hb hnodup.1
        · exact absurd (mem_of_pair hab).2 hnodup.1
      · rcases hab with ⟨rfl, -⟩ | hab
        · exact absurd (hmem.mp (mem_of_pair hba).2) hnodup.1
        · exact hall a b hab hba

/-! ## The schedule and the independent instructions -/

def Entry.node (e : Entry) : IrNodeId × Instruction := (e.id, e.instr)

/-- The nodes with their instructions in the order of the encoder. -/
def order (side_table : InstructionSideTable) : List (IrNodeId × Instruction) :=
  (emitted side_table).map Entry.node

/-- The nodes in the order that `schedule_block` gives. -/
def scheduled (side_table : InstructionSideTable) : List (IrNodeId × Instruction) :=
  (permutation side_table).filterMap fun i => (order side_table)[i]?

/-- The second sequence is the first one in another order, only independent
instructions change places, and both end in the same state. -/
def OnlyIndependent {L V : Type} (P : Processor L V) (l l' : List (IrNodeId × Instruction)) : Prop :=
  l.Perm l' ∧
  (∀ i j, [i, j].Sublist l → [j, i].Sublist l' → Independent P.toMachine i.2 j.2) ∧
  ∀ s, P.run (l.map Prod.snd) s = P.run (l'.map Prod.snd) s

/-- Two neighbours that are turned round are independent, and so are an instruction
and a later one with a smaller id where the orders of their partners are equal. -/
structure TradesIndependent {L V : Type} (P : Processor L V) (side_table : InstructionSideTable) :
    Prop where
  neighbours : TradesAll (fun a b => Independent P.toMachine a.instr b.instr) (emitted side_table)
  ties : (withPartners (emitted side_table)).Pairwise fun a b =>
    a.2.emission_order = b.2.emission_order → b.1.id.val.toNat < a.1.id.val.toNat →
      Independent P.toMachine a.1.instr b.1.instr

theorem order_nodup : (order side_table).Nodup := by
  have hids := emitted_ids_nodup side_table
  have hmap : (emitted side_table).map (·.id) = (order side_table).map Prod.fst := by
    unfold order
    rw [map_map]
    rfl
  rw [hmap] at hids
  exact hids.of_map

theorem scheduled_eq : scheduled side_table = (turned (emitted side_table)).map Entry.node := by
  have h := schedule_turned (emitted side_table) []
  rw [← h, List.map_filterMap]
  unfold scheduled order
  rw [permutation_eq]
  apply List.filterMap_congr
  intro i _
  rw [List.getElem?_map]
  rfl

theorem apply_entries : (apply side_table).2.entries = side_table.entries.map fun e =>
      { e with emission_order := orderAfter (exchanged (emitted side_table)) e } := by
  have hus : updates (emitted side_table) (permutation side_table) 0 = exchanged (emitted side_table) := by
    rw [permutation_eq]
    exact updates_eq (emitted side_table) []
  have hset := @set_orders_eq _ side_table.entries
    (exchanged_nodup _ (emitted_ids_nodup side_table))
  unfold apply
  split
  · rename_i hempty
    rw [List.isEmpty_iff.mp hempty]
    rfl
  · split
    · -- the identity: nothing to update
      rename_i hid
      have hnone : updates (emitted side_table) (permutation side_table) 0 = [] := by
        unfold updates
        rw [List.filterMap_eq_nil_iff]
        intro node hnode
        rw [of_decide_eq_true (List.all_eq_true.mp hid node hnode)]
        exact update_self _ _
      rw [← hset, ← hus, hnone]
      rfl
    · dsimp only
      rw [hus, hset]

theorem pair_of_map {β : Type} {f : α → β} {i j : β}
    (h : [i, j].Sublist (l.map f)) : ∃ a b, [a, b].Sublist l ∧ f a = i ∧ f b = j := by
  obtain ⟨r, hr, heq⟩ := List.sublist_map_iff.mp h
  obtain ⟨a, r, rfl, ha, heq⟩ := List.map_eq_cons_iff.mp heq.symm
  obtain ⟨b, r, rfl, hb, heq⟩ := List.map_eq_cons_iff.mp heq
  rw [List.map_eq_nil_iff.mp heq] at hr
  exact ⟨a, b, hr, ha, hb⟩

theorem pairs_of_entries {I : Instruction → Instruction → Prop} {f : Entry → Entry}
    (hf : ∀ e, (f e).node = e.node) {l l' : List Entry} (hnodup : (l.map (·.id)).Nodup)
    (hmem : ∀ e ∈ l', ∃ c ∈ l, e = f c) :
    (∀ i j, [i, j].Sublist (l.map Entry.node) → [j, i].Sublist (l'.map Entry.node) → I i.2 j.2) ↔
      ∀ a b, [a, b].Sublist l → [f b, f a].Sublist l' → I a.instr b.instr := by
  constructor
  · intro h a b hab hba
    refine h a.node b.node (hab.map Entry.node) ?_
    have := hba.map Entry.node
    rwa [map_cons, map_cons, hf a, hf b] at this
  · intro h i j hij hji
    obtain ⟨a, b, hab, rfl, rfl⟩ := pair_of_map hij
    obtain ⟨d, c, hdc, hd, hc⟩ := pair_of_map hji
    have hsame : ∀ {x y}, x ∈ l → y ∈ l' → y.node = x.node → y = f x := by
      intro x y hx hy hnode
      obtain ⟨z, hz, rfl⟩ := hmem y hy
      rw [hf z] at hnode
      rw [List.inj_on_of_nodup_map hnodup hz hx (congrArg Prod.fst hnode)]
    have hin := mem_of_pair hab
    have hin' := mem_of_pair hdc
    rw [hsame hin.2 hin'.1 hd, hsame hin.1 hin'.2 hc] at hdc
    exact h a b hab hdc

variable {L V : Type} {P : Processor L V}

theorem onlyIndependent_iff {l l' : List (IrNodeId × Instruction)} (hperm : l.Perm l')
    (hnodup : l.Nodup) : OnlyIndependent P l l' ↔
      ∀ i j, [i, j].Sublist l → [j, i].Sublist l' → Independent P.toMachine i.2 j.2 := by
  constructor
  · intro h
    exact h.2.1
  · intro h
    exact ⟨hperm, h, run_rearranged hnodup hperm h⟩

/-- The schedule of the block turns round the neighbours that trade. -/
theorem scheduled_iff : OnlyIndependent P (order side_table) (scheduled side_table) ↔
      TradesAll (fun a b => Independent P.toMachine a.instr b.instr) (emitted side_table) := by
  have hperm : (order side_table).Perm (scheduled side_table) := by
    rw [scheduled_eq]
    exact ((turned_perm _).map Entry.node).symm
  have hids := emitted_ids_nodup side_table
  rw [onlyIndependent_iff hperm (order_nodup side_table), scheduled_eq, order,
    pairs_of_entries (f := fun e => e) (fun _ => rfl) hids
      fun e he => ⟨e, (turned_perm _).mem_iff.mp he, rfl⟩]
  exact turned_pairs (fun a b => Independent P.toMachine a.instr b.instr) _ hids.of_map

/-- The pass turns round what the new emission orders do. -/
theorem applied_iff : OnlyIndependent P (order side_table) (order (apply side_table).2) ↔
      (withPartners (emitted side_table)).Pairwise fun a b =>
        toLex (b.2.emission_order, b.1.id.val.toNat) <
            toLex (a.2.emission_order, a.1.id.val.toNat) →
          Independent P.toMachine a.1.instr b.1.instr := by
  let f : Entry → Entry := fun e =>
    { e with emission_order := orderAfter (exchanged (emitted side_table)) e }
  have hentries : (apply side_table).2.entries = side_table.entries.map f := apply_entries side_table
  have hafter : (emitted (apply side_table).2).Perm ((emitted side_table).map f) := by
    refine (emitted_perm _).trans ?_
    rw [hentries]
    exact ((emitted_perm side_table).map f).symm
  have hperm : (order side_table).Perm (order (apply side_table).2) := by
    have := (hafter.map Entry.node).symm
    rwa [map_map] at this
  have hids := emitted_ids_nodup side_table
  rw [onlyIndependent_iff hperm (order_nodup side_table)]
  unfold order
  let before : Entry × Nat → Entry × Nat → Prop := fun a b =>
    toLex (b.2, b.1.id.val.toNat) < toLex (a.2, a.1.id.val.toNat) →
      Independent P.toMachine a.1.instr b.1.instr
  have hpartners := @List.pairwise_map _ _ (fun a : Entry × Entry => (a.1, a.2.emission_order))
    before (withPartners (emitted side_table))
  rw [withPartners_eq _ hids, List.pairwise_map] at hpartners
  rw [pairs_of_entries (f := f) (fun _ => rfl) hids]
  refine Iff.trans ?_ hpartners
  rw [List.pairwise_iff_forall_sublist]
  · constructor
    · intro h a b hab hlt
      have hin := mem_of_pair hab
      apply h a b hab
      exact (pair_iff_lt (emitted_sorted _) (hafter.mem_iff.mpr (mem_map_of_mem hin.2))
        (hafter.mem_iff.mpr (mem_map_of_mem hin.1))).mpr hlt
    · intro h a b hab hba
      apply h hab
      exact (pair_iff_lt (emitted_sorted _) (mem_of_pair hba).1 (mem_of_pair hba).2).mp hba
  · intro e he
    obtain ⟨c, hc, heq⟩ := List.mem_map.mp (hafter.mem_iff.mp he)
    exact ⟨c, hc, heq.symm⟩

theorem emitted_orders (side_table : InstructionSideTable) :
    (emitted side_table).Pairwise fun a b => a.emission_order ≤ b.emission_order := by
  refine (emitted_sorted side_table).imp fun {a b} h => ?_
  rcases Prod.Lex.toLex_lt_toLex.mp h with h | h
  · exact Nat.le_of_lt h
  · exact Nat.le_of_eq h.1

/-- No two partners have one emission order where no two instructions do. -/
theorem ties_of_distinct (h : (side_table.entries.map (·.emission_order)).Nodup) :
    TradesIndependent P side_table ↔
      TradesAll (fun a b => Independent P.toMachine a.instr b.instr) (emitted side_table) := by
  refine ⟨fun h => h.neighbours, fun hn => ⟨hn, ?_⟩⟩
  have hperm := (turned_perm (emitted side_table)).trans (emitted_perm side_table)
  have hdistinct := (hperm.map (·.emission_order)).nodup_iff.mpr h
  rw [← withPartners_snd, map_map, List.Nodup, List.pairwise_map] at hdistinct
  exact hdistinct.imp fun hne heq => absurd heq hne

/-- The schedule and the pass only turn round independent instructions exactly where
the neighbours that trade, and what the ties turn round, are independent. Where no two
emission orders are equal there are no ties. -/
theorem schedule_only_independent_iff (P : Processor L V) (side_table : InstructionSideTable) :
    (OnlyIndependent P (order side_table) (scheduled side_table) ∧
        OnlyIndependent P (order side_table) (order (apply side_table).2) ↔
      TradesIndependent P side_table) ∧
    ((side_table.entries.map (·.emission_order)).Nodup →
      (TradesIndependent P side_table ↔
        TradesAll (fun a b => Independent P.toMachine a.instr b.instr) (emitted side_table))) := by
  refine ⟨?_, ties_of_distinct side_table⟩
  rw [scheduled_iff, applied_iff]
  constructor
  · rintro ⟨hneighbours, happly⟩
    refine ⟨hneighbours, happly.imp fun h heq hid => h ?_⟩
    exact Prod.Lex.toLex_lt_toLex.mpr (.inr ⟨heq.symm, hid⟩)
  · intro h
    refine ⟨h.neighbours, ?_⟩
    refine (h.ties.and (partners_rise (emitted_orders side_table) h.neighbours)).imp ?_
    rintro a b ⟨htie, hrise⟩ hlt
    rcases Prod.Lex.toLex_lt_toLex.mp hlt with hlt | ⟨heq, hid⟩
    · exact hrise.resolve_left (Nat.not_le_of_lt hlt)
    · exact htie heq.symm hid

/-- `mov rax, 5`, `push rax`. -/
def movePush : InstructionSideTable where
  entries := [⟨⟨1, IrNodeId.one_ne⟩, 1, plain64 .Mov [.Reg ⟨0⟩, .Imm64 5]⟩,
    ⟨⟨2, IrNodeId.two_ne⟩, 2, plain64 .Push [.Reg ⟨0⟩]⟩]
  nodup := by decide

/-- The push is scheduled before the move: it pushes what was there before. -/
theorem push_before_move_changes :
    ¬ (OnlyIndependent movesAndPushes (order movePush) (scheduled movePush) ∧
      OnlyIndependent movesAndPushes (order movePush) (order (apply movePush).2)) := by
  intro h
  have hrun := h.1.2.2 fun _ => 0
  have hemitted : emitted movePush = movePush.entries := List.mergeSort_of_pairwise (by decide)
  have horder : order movePush = [(⟨1, by decide⟩, plain64 .Mov [.Reg ⟨0⟩, .Imm64 5]),
      (⟨2, by decide⟩, plain64 .Push [.Reg ⟨0⟩])] := by
    unfold order
    rw [hemitted]
    rfl
  have hscheduled : scheduled movePush = [(⟨2, by decide⟩, plain64 .Push [.Reg ⟨0⟩]),
      (⟨1, by decide⟩, plain64 .Mov [.Reg ⟨0⟩, .Imm64 5])] := by
    rw [scheduled_eq, hemitted]
    rfl
  rw [horder, hscheduled] at hrun
  have hcell := congrFun hrun (.byte (-8))
  revert hcell
  decide

end paideia_as_ir.opt.schedule
