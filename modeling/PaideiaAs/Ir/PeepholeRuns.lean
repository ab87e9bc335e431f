-- What the peephole pass keeps: each rewriting leaves the same but for some flags,
-- the quad under the stack, or what a fused load and store work on; where nothing
-- reads those, the registers, the stack and the jumps come out the same.
import PaideiaAs.Ir.Peephole

namespace paideia_as_ir.opt.peephole

open paideia_as_runtime paideia_as_ir.opt.schedule Footprint ByteMemory
open Assoc (keys lookup_cons_ite)
open Cpu (assigned)

/-! ## Single instructions -/

section

variable {cpu : Cpu} {s : Cells} {e : Entry} {c : Cell}

theorem step_of {l : List (Cell × BitVec 64)} (h : cpu.assigned e s = l) :
    cpu.machine.step e s c = (l.lookup c).getD (s c) := by
  rw [← h]
  rfl

variable {dst : Operand} {v : BitVec 64} {r : RegId}

theorem step_mov {src : Operand} (hm : e.instr.mnemonic = .Mov)
    (ho : e.instr.operands = [dst, src]) :
    cpu.machine.step e s c = ((cpu.put s dst (cpu.value s src)).lookup c).getD (s c) := by
  apply step_of
  unfold assigned
  rw [hm, ho]

theorem stored_keys (a : Address) (v : BitVec 64) : keys (stored a v) = quad a := by
  unfold keys stored quad
  rw [List.map_map]
  rfl

/-- A store leaves everything but its quad. -/
theorem lookup_stored {a : Address} (h : c ∉ quad a) : (stored a v).lookup c = none :=
  Assoc.lookup_none.mpr (stored_keys a v ▸ h)

theorem flag_of_result {carry overflow : Bool}
    (h : c ∈ (result_flags carry overflow v).map Prod.fst) : ∃ f, c = .flag f := by
  unfold result_flags at h
  simp only [List.map_cons, List.map_nil, List.mem_cons, List.not_mem_nil, or_false] at h
  rcases h with rfl | rfl | rfl | rfl | rfl <;> exact ⟨_, rfl⟩

/-- What an addition or a subtraction of 0 leaves is the register and the flags. -/
theorem lookup_unchanged {d : RegId} {carry overflow : Bool} {w : BitVec 64}
    (hv : v = s (.reg d)) (h : ∀ f, c ≠ .flag f) :
    (((.reg d, v) :: result_flags carry overflow w).lookup c).getD (s c) = s c := by
  rw [List.lookup_cons]
  by_cases hc : c = .reg d
  · subst hc
    simp [hv]
  · have hne : (c == .reg d) = false := beq_eq_false_iff_ne.mpr hc
    rw [hne]
    dsimp only
    rw [Assoc.lookup_none.mpr fun hmem => (flag_of_result hmem).elim h]
    rfl

/-! ## The rewritings -/

theorem step_mov_reg {dst src : RegId} (hm : e.instr.mnemonic = .Mov)
    (ho : e.instr.operands = [.Reg dst, .Reg src]) :
    cpu.machine.step e s c = if c = .reg dst then s (.reg src) else s c := by
  rw [step_mov hm ho]
  unfold Cpu.put Cpu.value
  dsimp only
  rw [lookup_cons_ite]
  split <;> rfl

theorem step_nop_mov (hm : e.instr.mnemonic = .Mov)
    (ho : e.instr.operands = [.Reg r, .Reg r]) : cpu.machine.step e s c = s c := by
  rw [step_mov_reg hm ho]
  split
  · rename_i hc
    rw [hc]
  · rfl

theorem step_zero_add (hm : e.instr.mnemonic = .Add)
    (ho : e.instr.operands = [dst, .Imm64 0]) (h : ∀ f, c ≠ .flag f) :
    cpu.machine.step e s c = s c := by
  change ((cpu.assigned e s).lookup c).getD (s c) = s c
  unfold assigned
  rw [hm, ho]
  cases dst with
  | Reg d => exact lookup_unchanged (BitVec.add_zero _) h
  | _ => rfl

theorem step_zero_sub (hm : e.instr.mnemonic = .Sub)
    (ho : e.instr.operands = [dst, .Imm64 0]) (h : ∀ f, c ≠ .flag f) :
    cpu.machine.step e s c = s c := by
  change ((cpu.assigned e s).lookup c).getD (s c) = s c
  unfold assigned
  rw [hm, ho]
  cases dst with
  | Reg d => exact lookup_unchanged (BitVec.sub_zero _) h
  | _ => rfl

/-- The product with a power of two is the shift; the flags are not the same. -/
theorem step_strength_mul {e' : Entry} {imm : Int64} {shift : Nat}
    (hm : e.instr.mnemonic = .Imul) (ho : e.instr.operands = [.Reg r, .Reg r, .Imm64 imm])
    (hm' : e'.instr.mnemonic = .Shl)
    (ho' : e'.instr.operands = [.Reg r, .Imm64 (Int64.ofNat shift)])
    (htwo : imm.toBitVec = BitVec.twoPow 64 shift) (hpos : 0 < shift) (hlt : shift < 64)
    (h : ∀ f, c ≠ .flag f) : cpu.machine.step e' s c = cpu.machine.step e s c := by
  have hcount : (Int64.ofNat shift).toBitVec.toNat % 64 = shift := by
    have hval : (Int64.ofNat shift).toBitVec = BitVec.ofNat 64 shift := rfl
    rw [hval, BitVec.toNat_ofNat]
    omega
  have hproduct : s (.reg r) * imm.toBitVec = s (.reg r) <<< shift := by
    rw [htwo, BitVec.mul_twoPow_eq_shiftLeft]
  have hold : cpu.assigned e s = cpu.product r (s (.reg r)) imm.toBitVec := by
    unfold assigned
    rw [hm, ho]
    rfl
  have hnew : cpu.assigned e' s = cpu.shifted r (s (.reg r)) (Int64.ofNat shift).toBitVec := by
    unfold assigned
    rw [hm', ho']
    rfl
  rw [step_of hold, step_of hnew]
  unfold Cpu.product Cpu.shifted
  dsimp only
  rw [hcount, if_neg (by omega), hproduct]
  by_cases hc : c = .reg r
  · subst hc
    simp
  · simp [List.lookup_cons, beq_eq_false_iff_ne.mpr hc, beq_eq_false_iff_ne.mpr (h _)]

/-- A comparison with 0 sets the flags as the test of the register with itself. -/
theorem step_cmp_test {e' : Entry} (hm : e.instr.mnemonic = .Cmp)
    (ho : e.instr.operands = [.Reg r, .Imm64 0]) (hm' : e'.instr.mnemonic = .Test)
    (ho' : e'.instr.operands = [.Reg r, .Reg r]) :
    cpu.machine.step e' s c = cpu.machine.step e s c := by
  have hold : cpu.assigned e s = difference_flags (s (.reg r)) 0 := by
    unfold assigned
    rw [hm, ho]
    rfl
  have hnew : cpu.assigned e' s = result_flags false false (s (.reg r) &&& s (.reg r)) := by
    unfold assigned
    rw [hm', ho']
    rfl
  have hcarry : BitVec.usubOverflow (s (.reg r)) 0 = false := by simp [BitVec.usubOverflow]
  have hoverflow : BitVec.ssubOverflow (s (.reg r)) 0 = false := by
    have hle := BitVec.toInt_lt (x := s (.reg r))
    have hge := BitVec.le_toInt (x := s (.reg r))
    simp [BitVec.ssubOverflow]
    omega
  have hsub : s (.reg r) - 0 = s (.reg r) := BitVec.sub_zero _
  rw [step_of hold, step_of hnew]
  unfold difference_flags
  rw [hcarry, hoverflow, hsub, BitVec.and_self]

theorem quad_nodup (a : Address) : (quad a).Nodup := by
  unfold quad
  refine List.Nodup.map_on ?_ List.nodup_range
  intro j hj k hk heq
  rw [List.mem_range] at hj hk
  have haddr : a + BitVec.ofNat 64 j = a + BitVec.ofNat 64 k := Cell.byte.inj heq
  bv_omega

theorem lookup_stored_byte (a x : Address) (v : BitVec 64) : (stored a v).lookup (.byte x)
    = if (x - a).toNat < 8 then some ((v.extractLsb' (8 * (x - a).toNat) 8).setWidth 64) else none := by
  split
  · rename_i hlt
    rw [Assoc.lookup_iff_mem (stored_keys a v ▸ quad_nodup a)]
    have hx : a + BitVec.ofNat 64 (x - a).toNat = x := by bv_omega
    refine List.mem_map.mpr ⟨(x - a).toNat, List.mem_range.mpr hlt, ?_⟩
    rw [hx]
  · rename_i hge
    apply lookup_stored
    intro hmem
    obtain ⟨k, hk, heq⟩ := List.mem_map.mp hmem
    rw [List.mem_range] at hk
    have haddr : a + BitVec.ofNat 64 k = x := Cell.byte.inj heq
    bv_omega

theorem step_push (hm : e.instr.mnemonic = .Push) (ho : e.instr.operands = [.Reg r]) :
    cpu.machine.step e s c = if c = .reg abi.RSP then s (.reg abi.RSP) - 8
        else ((stored (s (.reg abi.RSP) - 8) (s (.reg r))).lookup c).getD (s c) := by
  have hold : cpu.assigned e s = (.reg abi.RSP, s (.reg abi.RSP) - 8) ::
      stored (s (.reg abi.RSP) - 8) (s (.reg r)) := by
    unfold assigned
    rw [hm, ho]
    rfl
  rw [step_of hold, lookup_cons_ite]
  split <;> rfl

theorem push_memory (hm : e.instr.mnemonic = .Push) (ho : e.instr.operands = [.Reg r]) :
    Cells.memory (cpu.machine.step e s)
      = store (Cells.memory s) (s (.reg abi.RSP) - 8) (s (.reg r)) := by
  funext x
  unfold Cells.memory store
  rw [step_push hm ho, if_neg (by simp), lookup_stored_byte]
  split
  · rw [Option.getD_some, BitVec.setWidth_setWidth_of_le _ (by omega), BitVec.setWidth_eq]
  · rfl

theorem run_push_pop {push pop : Entry} {src dst : RegId} (hm : push.instr.mnemonic = .Push)
    (ho : push.instr.operands = [.Reg src]) (hm' : pop.instr.mnemonic = .Pop)
    (ho' : pop.instr.operands = [.Reg dst])
    (h : c ∉ quad (s (.reg abi.RSP) - 8)) :
    cpu.machine.run [push, pop] s c = if c = .reg dst then s (.reg src) else s c := by
  have htop : cpu.machine.step push s (.reg abi.RSP) = s (.reg abi.RSP) - 8 := by
    rw [step_push hm ho, if_pos rfl]
  have hold : cpu.assigned pop (cpu.machine.step push s)
      = [(.reg dst, s (.reg src)), (.reg abi.RSP, s (.reg abi.RSP))] := by
    unfold assigned
    rw [hm', ho']
    dsimp only
    rw [htop, push_memory hm ho, load_store, BitVec.sub_add_cancel]
  rw [Machine.run_cons, Machine.run_cons, Machine.run_nil, step_of hold, lookup_cons_ite,
    lookup_cons_ite, step_push hm ho, lookup_stored h]
  by_cases hc : c = .reg dst
  · rw [if_pos hc, if_pos hc]
    rfl
  · rw [if_neg hc, if_neg hc]
    by_cases hsp : c = .reg abi.RSP
    · rw [if_pos hsp, hsp]
      rfl
    · rw [if_neg hsp, if_neg hsp]
      rfl

theorem run_push_pop_same {push pop : Entry} (hm : push.instr.mnemonic = .Push)
    (ho : push.instr.operands = [.Reg r]) (hm' : pop.instr.mnemonic = .Pop)
    (ho' : pop.instr.operands = [.Reg r])
    (h : c ∉ quad (s (.reg abi.RSP) - 8)) : cpu.machine.run [push, pop] s c = s c := by
  rw [run_push_pop hm ho hm' ho' h]
  split
  · rename_i hc
    rw [hc]
  · rfl

theorem run_load_store {load store : Entry} {mem : Operand}
    (hm : load.instr.mnemonic = .Mov) (ho : load.instr.operands = [.Reg r, mem])
    (hm' : store.instr.mnemonic = .Mov) (ho' : store.instr.operands = [mem, .Reg r])
    (hmem : is_mem mem = true) (hreg : c ≠ .reg r)
    (h : ∀ a, cpu.address (cpu.machine.step load s) mem = some a → c ∉ quad a) :
    cpu.machine.run [load, store] s c = s c := by
  have hload : cpu.machine.step load s c = s c := by
    rw [step_mov hm ho]
    unfold Cpu.put
    dsimp only
    rw [lookup_cons_ite, if_neg hreg]
    rfl
  have hput : ∀ v, cpu.put (cpu.machine.step load s) mem v
      = cpu.stores (cpu.machine.step load s) mem v := by
    intro v
    cases mem with
    | MemSib base index scale disp => rfl
    | MemDisp disp => rfl
    | _ => cases hmem
  rw [Machine.run_cons, Machine.run_cons, Machine.run_nil, step_mov hm' ho', hput]
  unfold Cpu.stores
  cases ha : cpu.address (cpu.machine.step load s) mem with
  | none => exact hload
  | some a =>
    dsimp only
    rw [lookup_stored (h a ha)]
    exact hload

end

/-! ## What a rewriting leaves different -/

variable (cpu : Cpu)

/-- Where a fused load and store can leave something else. -/
def Cpu.fused (s : Cells) : List Entry → Set Cell
  | [load, _] =>
    match load.instr.operands with
    | [.Reg r, mem] =>
      {c | c = .reg r ∨ ∃ a, cpu.address (cpu.machine.step load s) mem = some a ∧ c ∈ quad a}
    | _ => ∅
  | _ => ∅

/-- The cells that a rewriting works on without keeping them. -/
def Cpu.scope (piece : Piece) (s : Cells) : Set Cell :=
  match piece.pending with
  | none | some .ReplaceCmpWithTest => ∅
  | some (.ReplaceImulWithShl _) => {c | ∃ f, c = .flag f}
  | some (.ReplacePushPopWithMov _ _) => {c | c ∈ quad (s (.reg abi.RSP) - 8)}
  | some (.Remove _ name) =>
    match name with
    | .SimplifyZeroAdd | .SimplifyZeroSub => {c | ∃ f, c = .flag f}
    | .FuseLoadStore => cpu.fused s piece.old
    | .CombinePushPop => {c | c ∈ quad (s (.reg abi.RSP) - 8)}
    | _ => ∅

/-- Of these cells, those that are different. -/
def Cpu.rewrite (piece : Piece) : Rewrite Entry Cell (BitVec 64) where
  old := piece.old
  new := piece.new
  differs s :=
    {c | c ∈ cpu.scope piece s ∧
      cpu.machine.run piece.new.toList s c ≠ cpu.machine.run piece.old s c}

variable {cpu}

theorem Matched.keeps {piece : Piece} (h : Matched piece) {s : Cells} {c : Cell}
    (hc : c ∉ cpu.scope piece s) :
    cpu.machine.run piece.new.toList s c = cpu.machine.run piece.old s c := by
  cases h with
  | kept => rfl
  | nop_mov hm ho => exact (step_nop_mov hm ho).symm
  | zero_add hm ho => exact (step_zero_add hm ho fun f hf => hc ⟨f, hf⟩).symm
  | zero_sub hm ho => exact (step_zero_sub hm ho fun f hf => hc ⟨f, hf⟩).symm
  | strength_mul hm ho htwo hpos hlt =>
    exact step_strength_mul hm ho rfl rfl htwo hpos hlt fun f hf => hc ⟨f, hf⟩
  | load_store hm ho hm' ho' hmem =>
    unfold Cpu.scope Cpu.fused at hc
    dsimp only at hc
    rw [ho] at hc
    exact (run_load_store hm ho hm' ho' hmem (fun heq => hc (.inl heq))
      fun a ha hquad => hc (.inr ⟨a, ha, hquad⟩)).symm
  | push_pop hm ho hm' ho' => exact (run_push_pop_same hm ho hm' ho' hc).symm
  | push_pop_mov hm ho hm' ho' =>
    exact (step_mov_reg rfl rfl).trans (run_push_pop hm ho hm' ho' hc).symm
  | cmp_test hm ho => exact step_cmp_test hm ho rfl rfl

theorem Matched.sound {piece : Piece} (h : Matched piece) : (cpu.rewrite piece).Sound cpu.machine := by
  intro s c hc
  by_contra hne
  refine hc ⟨?_, hne⟩
  by_contra hscope
  exact hne (h.keeps hscope)

/-! ## Whole tables -/

theorem before_rewrites (side_table : InstructionSideTable) :
    before ((pieces side_table).map cpu.rewrite) = tailcall.by_id side_table := by
  unfold before
  rw [List.flatMap_map]
  exact scan_old 0

theorem after_rewrites (side_table : InstructionSideTable) :
    after ((pieces side_table).map cpu.rewrite) = tailcall.by_id (apply side_table) := by
  unfold after
  rw [List.filterMap_map, by_id_apply]
  rfl

/-- The general registers, the memory from the stack pointer on, and the jumps. -/
def seen (s : Cells) : Set Cell
  | .reg r => r.num < 16
  | .byte a => (s (.reg abi.RSP)).toNat ≤ a.toNat
  | .taken _ => True
  | _ => False

/-- The table and what the pass leaves of it come to the same. -/
def Preserves (cpu : Cpu) (side_table : InstructionSideTable) (s : Cells) : Prop :=
  ∀ c ∈ seen (cpu.machine.run (tailcall.by_id side_table) s),
    cpu.machine.run (tailcall.by_id (apply side_table)) s c
      = cpu.machine.run (tailcall.by_id side_table) s c

/-- In the run of the table, nothing that the pass leaves reads a cell which a
rewriting has left different, and none of those is seen at the end. -/
def Unnoticed (cpu : Cpu) (side_table : InstructionSideTable) (s : Cells) : Prop :=
  Unread cpu.machine seen ((pieces side_table).map cpu.rewrite) s ∅

/-- Where nothing reads what a rewriting changed, the runs end alike. -/
theorem preserves_of_unnoticed {cpu : Cpu} {side_table : InstructionSideTable} {s : Cells}
    (h : Unnoticed cpu side_table s) : Preserves cpu side_table s := by
  have hsound : ∀ w ∈ (pieces side_table).map cpu.rewrite, w.Sound cpu.machine := by
    intro w hw
    obtain ⟨piece, hpiece, rfl⟩ := List.mem_map.mp hw
    exact (scan_matched 0 piece hpiece).sound
  have hsame := Unread.same hsound h fun _ _ => rfl
  rw [before_rewrites, after_rewrites] at hsame
  exact hsame

/-! ## Two tables -/

def plain : Cpu := ⟨fun _ => 0, fun _ _ _ _ => 0⟩

/-- `rax` is 1, and everything else 0. -/
def start : Cells
  | .reg r => if r = abi.RAX then 1 else 0
  | _ => 0

/-- `imul rcx, rcx, 8`, `cmp rcx, 0`, `jne`. -/
def mulCompare : InstructionSideTable where
  entries := [⟨⟨1, IrNodeId.one_ne⟩, 1, plain64 .Imul [.Reg abi.RCX, .Reg abi.RCX, .Imm64 8]⟩,
    ⟨⟨2, IrNodeId.two_ne⟩, 2, plain64 .Cmp [.Reg abi.RCX, .Imm64 0]⟩,
    ⟨⟨3, IrNodeId.three_ne⟩, 3, plain64 (.Jcc .Ne) [.LabelRef "next" 0]⟩]
  nodup := by decide

theorem mulCompare_pieces : pieces mulCompare = [⟨some (.ReplaceImulWithShl 3),
        [⟨⟨1, by decide⟩, 1, plain64 .Imul [.Reg abi.RCX, .Reg abi.RCX, .Imm64 8]⟩],
        some ⟨⟨1, by decide⟩, 1, plain64 .Shl [.Reg abi.RCX, .Imm64 3]⟩⟩,
      ⟨some .ReplaceCmpWithTest, [⟨⟨2, by decide⟩, 2, plain64 .Cmp [.Reg abi.RCX, .Imm64 0]⟩],
        some ⟨⟨2, by decide⟩, 2, plain64 .Test [.Reg abi.RCX, .Reg abi.RCX]⟩⟩,
      ⟨none, [⟨⟨3, by decide⟩, 3, plain64 (.Jcc .Ne) [.LabelRef "next" 0]⟩],
        some ⟨⟨3, by decide⟩, 3, plain64 (.Jcc .Ne) [.LabelRef "next" 0]⟩⟩] := by
  have hby : tailcall.by_id mulCompare = mulCompare.entries := List.mergeSort_of_pairwise (by decide)
  unfold pieces
  rw [hby]
  rfl

theorem test_writes_flags (cpu : Cpu) {e : Entry} {a b : Operand} (hm : e.instr.mnemonic = .Test)
    (ho : e.instr.operands = [a, b]) (s : Cells) (f : Flag) : .flag f ∈ cpu.machine.writes e s := by
  change ((cpu.assigned e s).lookup (.flag f)).isSome = true
  unfold assigned
  rw [hm, ho]
  cases f <;> rfl

/-- The flags of the product are set again before the jump reads them. -/
theorem mulCompare_unnoticed (cpu : Cpu) (s : Cells) : Unnoticed cpu mulCompare s := by
  unfold Unnoticed
  rw [mulCompare_pieces]
  simp only [List.map_cons, List.map_nil, Unread]
  refine ⟨fun i _ c _ => Set.notMem_empty c, ?_⟩
  generalize hstale : Rewrite.spread cpu.machine _ s ∅ = stale
  have hflag : ∀ c ∈ stale, ∃ f, c = .flag f := by
    rw [← hstale]
    rintro c (hc | hc)
    · exact hc.1
    · exact hc.1.elim
  refine ⟨?_, ?_⟩
  · intro i hi c hc hmem
    obtain ⟨f, rfl⟩ := hflag c hmem
    cases hi
    have hreads : Cell.flag f ∈ [Cell.reg abi.RCX, .reg abi.RCX] := hc
    simp at hreads
  generalize hclear : Rewrite.spread cpu.machine _ _ stale = clear
  have hnone : ∀ c, c ∉ clear := by
    rw [← hclear]
    rintro c (hc | ⟨hc, hwrites⟩)
    · exact hc.1
    · obtain ⟨f, rfl⟩ := hflag c hc
      exact hwrites _ rfl (test_writes_flags cpu rfl rfl _ f)
  refine ⟨fun i _ c _ => hnone c, ?_⟩
  rintro c (hc | hc)
  · exact hc.1.elim
  · exact (hnone c hc.1).elim

theorem mulCompare_preserved : Preserves plain mulCompare start :=
  preserves_of_unnoticed (mulCompare_unnoticed plain start)

/-- `mov rax, [rbx]`, `mov [rbx], rax`. -/
def loadStore : InstructionSideTable where
  entries := [⟨⟨1, IrNodeId.one_ne⟩, 1, plain64 .Mov [.Reg abi.RAX, .MemSib ⟨3⟩ none .X1 0]⟩,
    ⟨⟨2, IrNodeId.two_ne⟩, 2, plain64 .Mov [.MemSib ⟨3⟩ none .X1 0, .Reg abi.RAX]⟩]
  nodup := by decide

/-- The pass takes the load away with the store: `rax` stays 1. -/
theorem loadStore_not_preserved : ¬ Preserves plain loadStore start := by
  have hby : tailcall.by_id loadStore = loadStore.entries := List.mergeSort_of_pairwise (by decide)
  have hpieces : pieces loadStore = [⟨some (.Remove 2 .FuseLoadStore), loadStore.entries, none⟩] := by
    unfold pieces
    rw [hby]
    rfl
  intro h
  have hrax := h (.reg abi.RAX) (show abi.RAX.num < 16 by decide)
  rw [by_id_apply, hpieces, hby] at hrax
  revert hrax
  decide

end paideia_as_ir.opt.peephole
