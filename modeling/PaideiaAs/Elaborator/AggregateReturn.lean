-- The instruction sequences of aggregate returns (`aggregate_return.rs`), the
-- machine that runs them, and what the two sides of a return copy.
import PaideiaAs.Elaborator.RecordLayouts
import PaideiaAs.Ir.Processor
import PaideiaAs.Lib.ByteMemory
import PaideiaAs.Lib.Outcome

namespace paideia_as_elaborator.aggregate_return

open paideia_as_runtime ByteMemory paideia_as_ir paideia_as_ir.opt
open BitVec (ofNat)

/-! ## Instructions -/

def SSE_SCRATCH_GPR : RegId := abi.R10

def mov_reg_from_mem (dest base : RegId) (disp : Int32) : Instruction :=
  plain64 .Mov [.Reg dest, .MemSib base none .X1 disp]

def mov_mem_from_reg (base : RegId) (disp : Int32) (src : RegId) : Instruction :=
  plain64 .Mov [.MemSib base none .X1 disp, .Reg src]

def mov_reg_from_reg (dest src : RegId) : Instruction := plain64 .Mov [.Reg dest, .Reg src]

def lea_reg_from_mem (dest base : RegId) (disp : Int32) : Instruction :=
  plain64 .Lea [.Reg dest, .MemSib base none .X1 disp]

def movq_bitcast_to_xmm (xmm_dst gpr_src : RegId) : Instruction :=
  plain64 (.MovqBitcast true) [.Reg xmm_dst, .Reg gpr_src]

def movq_bitcast_from_xmm (gpr_dst xmm_src : RegId) : Instruction :=
  plain64 (.MovqBitcast false) [.Reg gpr_dst, .Reg xmm_src]

def load_xmm_from_mem (xmm_dst base : RegId) (disp : Int32) : List Instruction :=
  [mov_reg_from_mem SSE_SCRATCH_GPR base disp, movq_bitcast_to_xmm xmm_dst SSE_SCRATCH_GPR]

def store_xmm_to_mem (base : RegId) (disp : Int32) (xmm_src : RegId) : List Instruction :=
  [movq_bitcast_from_xmm SSE_SCRATCH_GPR xmm_src, mov_mem_from_reg base disp SSE_SCRATCH_GPR]

/-! ## System V -/

def sysv_caller_sret_prelude (dest_base : RegId) (dest_disp : Int32) : List Instruction :=
  [lea_reg_from_mem abi.RDI dest_base dest_disp]

def sysv_caller_read_return_pair (placement : abi.SysvReturnPlacement) (dest_base : RegId)
    (dest_disp : Int32) : List Instruction :=
  match placement with
  | .None | .Memory => []
  | .IntSingle => [mov_mem_from_reg dest_base dest_disp abi.RAX]
  | .SseSingle => store_xmm_to_mem dest_base dest_disp abi.XMM0
  | .IntPair =>
    [mov_mem_from_reg dest_base dest_disp abi.RAX, mov_mem_from_reg dest_base (dest_disp + 8) abi.RDX]
  | .IntSse =>
    mov_mem_from_reg dest_base dest_disp abi.RAX :: store_xmm_to_mem dest_base (dest_disp + 8) abi.XMM0
  | .SseInt =>
    store_xmm_to_mem dest_base dest_disp abi.XMM0 ++ [mov_mem_from_reg dest_base (dest_disp + 8) abi.RAX]
  | .SsePair =>
    store_xmm_to_mem dest_base dest_disp abi.XMM0 ++ store_xmm_to_mem dest_base (dest_disp + 8) abi.XMM1

def sysv_callee_load_return_pair (placement : abi.SysvReturnPlacement) (buf_base : RegId)
    (buf_disp : Int32) : List Instruction :=
  match placement with
  | .None | .Memory => []
  | .IntSingle => [mov_reg_from_mem abi.RAX buf_base buf_disp]
  | .SseSingle => load_xmm_from_mem abi.XMM0 buf_base buf_disp
  | .IntPair =>
    [mov_reg_from_mem abi.RAX buf_base buf_disp, mov_reg_from_mem abi.RDX buf_base (buf_disp + 8)]
  | .IntSse => mov_reg_from_mem abi.RAX buf_base buf_disp :: load_xmm_from_mem abi.XMM0 buf_base (buf_disp + 8)
  | .SseInt => load_xmm_from_mem abi.XMM0 buf_base buf_disp ++ [mov_reg_from_mem abi.RAX buf_base (buf_disp + 8)]
  | .SsePair => load_xmm_from_mem abi.XMM0 buf_base buf_disp ++ load_xmm_from_mem abi.XMM1 buf_base (buf_disp + 8)

/-- One turn of the copy loop of the sret stores. -/
def sret_qword (pointer src_base : RegId) (src_disp : Int32) (i : Nat) : List Instruction :=
  let off := Int32.ofNat i * 8
  [mov_reg_from_mem SSE_SCRATCH_GPR src_base (src_disp + off),
    mov_mem_from_reg pointer off SSE_SCRATCH_GPR]

/-- The store of the callee through the hidden pointer. The two assertions of the
source are the panics. -/
def callee_sret_store (pointer : RegId) (size_bytes : UInt32) (src_base : RegId)
    (src_disp : Int32) : Outcome (List Instruction) :=
  if size_bytes = 0 then .error .panic
  else if size_bytes % 8 ≠ 0 then .error .panic
  else .ok ((List.range (size_bytes / 8).toNat).flatMap (sret_qword pointer src_base src_disp)
    ++ [mov_reg_from_reg abi.RAX pointer])

def sysv_callee_sret_store (size_bytes : UInt32) (src_base : RegId) (src_disp : Int32) :
    Outcome (List Instruction) :=
  callee_sret_store abi.RDI size_bytes src_base src_disp

/-! ## MS -/

def ms_caller_sret_prelude (dest_base : RegId) (dest_disp : Int32) : List Instruction :=
  [lea_reg_from_mem abi.RCX dest_base dest_disp]

def ms_caller_read_return_reg (placement : abi.MsReturnPlacement) (dest_base : RegId)
    (dest_disp : Int32) : List Instruction :=
  match placement with
  | .None | .Memory => []
  | .IntSingle => [mov_mem_from_reg dest_base dest_disp abi.RAX]
  | .XmmSingle => store_xmm_to_mem dest_base dest_disp abi.XMM0

def ms_callee_load_return_reg (placement : abi.MsReturnPlacement) (buf_base : RegId)
    (buf_disp : Int32) : List Instruction :=
  match placement with
  | .None | .Memory => []
  | .IntSingle => [mov_reg_from_mem abi.RAX buf_base buf_disp]
  | .XmmSingle => load_xmm_from_mem abi.XMM0 buf_base buf_disp

def ms_callee_sret_store (size_bytes : UInt32) (src_base : RegId) (src_disp : Int32) :
    Outcome (List Instruction) :=
  callee_sret_store abi.RCX size_bytes src_base src_disp

/-- A buffer: a base register and a displacement. -/
structure Buffer where
  base : RegId
  disp : Int32

/-- What the caller and the callee run for a record that the callee holds in `src`
and the caller wants in `dest`. -/
def sysv_return (layout : abi.RecordLayout) (src dest : Buffer) : Outcome (List Instruction) :=
  match abi.sysv_return_placement_from_layout layout with
  | .Memory => do
    let store ← sysv_callee_sret_store layout.size.toUInt32 src.base src.disp
    return sysv_caller_sret_prelude dest.base dest.disp ++ store
  | placement =>
    return sysv_callee_load_return_pair placement src.base src.disp
      ++ sysv_caller_read_return_pair placement dest.base dest.disp

def ms_return (layout : abi.RecordLayout) (src dest : Buffer) : Outcome (List Instruction) :=
  match abi.ms_return_placement_from_layout layout with
  | .Memory => do
    let store ← ms_callee_sret_store layout.size.toUInt32 src.base src.disp
    return ms_caller_sret_prelude dest.base dest.disp ++ store
  | placement =>
    return ms_callee_load_return_reg placement src.base src.disp
      ++ ms_caller_read_return_reg placement dest.base dest.disp

/-! ## The machine -/

/-- The registers, the low quads of the xmm registers among them, and the memory. -/
structure State where
  regs : RegId → BitVec 64
  mem : Memory

namespace State

def set (s : State) (r : RegId) (v : BitVec 64) : State :=
  { s with regs := fun r' => if r' = r then v else s.regs r' }

def address (s : State) (base : RegId) (disp : Int32) : Address :=
  s.regs base + disp.toBitVec.signExtend 64

end State

def step (i : Instruction) (s : State) : Option State :=
  match i.mnemonic, i.operands with
  | .Mov, [.Reg dest, .MemSib base none .X1 disp] =>
    some (s.set dest (load s.mem (s.address base disp)))
  | .Mov, [.MemSib base none .X1 disp, .Reg src] =>
    some { s with mem := store s.mem (s.address base disp) (s.regs src) }
  | .Mov, [.Reg dest, .Reg src] => some (s.set dest (s.regs src))
  | .Lea, [.Reg dest, .MemSib base none .X1 disp] => some (s.set dest (s.address base disp))
  | .MovqBitcast _, [.Reg dest, .Reg src] => some (s.set dest (s.regs src))
  | _, _ => none

def run : List Instruction → State → Option State
  | [], s => some s
  | i :: rest, s => (step i s).bind (run rest)

@[simp] theorem State.set_mem (s : State) (r : RegId) (v : BitVec 64) : (s.set r v).mem = s.mem := rfl

@[simp] theorem State.set_same (s : State) (r : RegId) (v : BitVec 64) : (s.set r v).regs r = v :=
  if_pos rfl

variable {s : State} {pointer : RegId} {size : Nat}

theorem State.set_other {r r' : RegId} {v : BitVec 64} (h : r' ≠ r) :
    (s.set r v).regs r' = s.regs r' :=
  if_neg h

theorem run_append {a b : List Instruction} {s' : State} (h : run a s = some s') :
    run (a ++ b) s = run b s' := by
  induction a generalizing s with
  | nil =>
    cases h
    rfl
  | cons i rest ih =>
    obtain ⟨s1, hstep, hrest⟩ := Option.bind_eq_some_iff.mp h
    rw [List.cons_append, run, hstep, Option.bind_some]
    exact ih hrest

/-! ## Addresses -/

/-- The next eightbytes have the next addresses, as long as the displacement stays in
its 32 bits. -/
theorem extend_add {disp : Int32} {n : Nat} (h : disp.toInt + n < 2 ^ 31) :
    (disp + Int32.ofNat n).toBitVec.signExtend 64 = disp.toBitVec.signExtend 64 + ofNat 64 n := by
  have hlow := Int32.le_toInt disp
  apply BitVec.eq_of_toInt_eq
  rw [BitVec.toInt_signExtend_of_le (by decide), BitVec.toInt_add,
    BitVec.toInt_signExtend_of_le (by decide), Int32.toInt_toBitVec, Int32.toInt_add,
    Int32.toInt_ofNat', BitVec.toInt_ofNat', Int32.toInt_toBitVec, Int.add_bmod_bmod]
  change (disp.toInt + n).bmod (2 ^ 32) = _
  rw [Int.add_bmod_bmod, Int.bmod_eq_of_le (by omega) (by omega),
    Int.bmod_eq_of_le (by omega) (by omega)]

def Buffer.address (b : Buffer) (s : State) : Address := s.address b.base b.disp

theorem address_next {b : Buffer} {n : Nat} (h : b.disp.toInt + n < 2 ^ 31) :
    s.address b.base (b.disp + Int32.ofNat n) = b.address s + ofNat 64 n := by
  unfold Buffer.address State.address
  rw [extend_add h, BitVec.add_assoc]

/-- A general register that no sequence writes. -/
structure Buffer.Addressable (b : Buffer) : Prop where
  general : b.base.num < 16
  unwritten : b.base ∉ [abi.RAX, abi.RDX, abi.RCX, abi.RDI, abi.R10]

theorem Buffer.Addressable.ne {b : Buffer} (h : b.Addressable) {r : RegId}
    (hr : r ∈ [abi.RAX, abi.RDX, abi.RCX, abi.RDI, abi.R10] ∨ 16 ≤ r.num) : b.base ≠ r := by
  rintro rfl
  rcases hr with hr | hr
  · exact h.unwritten hr
  · exact absurd h.general (UInt8.not_lt.mpr hr)

/-! ## Return registers -/

/-- A return register: a general one, or an xmm register behind the scratch register. -/
inductive Carrier where
  | gpr (r : RegId)
  | xmm (r : RegId)

namespace Carrier

def reg : Carrier → RegId
  | .gpr r => r
  | .xmm r => r

def fetch (c : Carrier) (base : RegId) (disp : Int32) : List Instruction :=
  match c with
  | .gpr r => [mov_reg_from_mem r base disp]
  | .xmm r => load_xmm_from_mem r base disp

def deposit (c : Carrier) (base : RegId) (disp : Int32) : List Instruction :=
  match c with
  | .gpr r => [mov_mem_from_reg base disp r]
  | .xmm r => store_xmm_to_mem base disp r

theorem fetch_run (c : Carrier) (base : RegId) (disp : Int32) (s : State) :
    ∃ s', run (c.fetch base disp) s = some s' ∧ s'.mem = s.mem ∧
      s'.regs c.reg = load s.mem (s.address base disp) ∧
      ∀ r, r ≠ c.reg → r ≠ SSE_SCRATCH_GPR → s'.regs r = s.regs r := by
  cases c with
  | gpr r =>
    refine ⟨_, rfl, rfl, State.set_same .., ?_⟩
    intro r' hr _
    exact State.set_other hr
  | xmm r =>
    refine ⟨_, rfl, rfl, ?_, ?_⟩
    · exact (State.set_same ..).trans (State.set_same ..)
    · intro r' hr hscratch
      exact (State.set_other hr).trans (State.set_other hscratch)

theorem deposit_run (c : Carrier) {base : RegId} (disp : Int32) (s : State)
    (hbase : base ≠ SSE_SCRATCH_GPR) :
    ∃ s', run (c.deposit base disp) s = some s' ∧
      s'.mem = store s.mem (s.address base disp) (s.regs c.reg) ∧
      ∀ r, r ≠ SSE_SCRATCH_GPR → s'.regs r = s.regs r := by
  cases c with
  | gpr r => exact ⟨_, rfl, rfl, fun _ _ => rfl⟩
  | xmm r =>
    refine ⟨_, rfl, ?_, fun r' hr => State.set_other hr⟩
    dsimp only [State.address]
    rw [State.set_other hbase, State.set_same]
    rfl

end Carrier

variable {c : Carrier}

/-- One eightbyte through one register. -/
theorem returned_one {src dest : Buffer} (hdest : dest.base ≠ c.reg)
    (hscratch : dest.base ≠ SSE_SCRATCH_GPR) (s : State) :
    ∃ s', run (c.fetch src.base src.disp ++ c.deposit dest.base dest.disp) s = some s' ∧
      s'.mem = copy s.mem (dest.address s) (src.address s) 8 := by
  obtain ⟨s1, hfetch, hmem, hreg, hother⟩ := c.fetch_run src.base src.disp s
  obtain ⟨s2, hdeposit, hmem', -⟩ := c.deposit_run dest.disp s1 hscratch
  refine ⟨s2, (run_append hfetch).trans hdeposit, ?_⟩
  have haddr : s1.address dest.base dest.disp = dest.address s := by
    unfold Buffer.address State.address
    rw [hother _ hdest hscratch]
  have hcopy := store_copy s.mem (dest.address s) (src.address s) (n := 0) (by decide)
  rw [copy_zero, BitVec.add_zero, BitVec.add_zero] at hcopy
  rw [hmem', haddr, hmem, hreg]
  exact hcopy

/-- Two eightbytes through two registers: both are loaded before either is stored. -/
theorem returned_two {d : Carrier} {src dest : Buffer} (hcd : c.reg ≠ d.reg)
    (hc : c.reg ≠ SSE_SCRATCH_GPR) (hd : d.reg ≠ SSE_SCRATCH_GPR)
    (hsrc : ∀ r ∈ [c.reg, d.reg, SSE_SCRATCH_GPR], src.base ≠ r)
    (hdest : ∀ r ∈ [c.reg, d.reg, SSE_SCRATCH_GPR], dest.base ≠ r)
    (hsrcreach : src.disp.toInt + 8 < 2 ^ 31) (hdestreach : dest.disp.toInt + 8 < 2 ^ 31)
    (s : State) :
    ∃ s', run ((c.fetch src.base src.disp ++ d.fetch src.base (src.disp + 8))
        ++ (c.deposit dest.base dest.disp ++ d.deposit dest.base (dest.disp + 8))) s = some s' ∧
      s'.mem = copy s.mem (dest.address s) (src.address s) 16 := by
  simp only [List.mem_cons, List.not_mem_nil, or_false, forall_eq_or_imp, forall_eq] at hsrc hdest
  obtain ⟨s1, hfetch1, hmem1, hreg1, hother1⟩ := c.fetch_run src.base src.disp s
  obtain ⟨s2, hfetch2, hmem2, hreg2, hother2⟩ := d.fetch_run src.base (src.disp + 8) s1
  obtain ⟨s3, hdeposit1, hmem3, hother3⟩ := c.deposit_run dest.disp s2 hdest.2.2
  obtain ⟨s4, hdeposit2, hmem4, -⟩ := d.deposit_run (dest.disp + 8) s3 hdest.2.2
  have hfetch := (run_append hfetch1).trans hfetch2
  have hdeposit := (run_append hdeposit1).trans hdeposit2
  refine ⟨s4, (run_append hfetch).trans hdeposit, ?_⟩
  have hbase : s2.regs dest.base = s.regs dest.base :=
    (hother2 _ hdest.2.1 hdest.2.2).trans (hother1 _ hdest.1 hdest.2.2)
  have hto1 : s2.address dest.base dest.disp = dest.address s := by
    unfold Buffer.address State.address
    rw [hbase]
  have hto2 : s3.address dest.base (dest.disp + 8) = dest.address s + ofNat 64 8 := by
    rw [← address_next hdestreach]
    unfold State.address
    rw [hother3 _ hdest.2.2, hbase]
    rfl
  have hfrom2 : s1.address src.base (src.disp + 8) = src.address s + ofNat 64 8 := by
    rw [← address_next hsrcreach]
    unfold State.address
    rw [hother1 _ hsrc.1 hsrc.2.2]
    rfl
  have hval1 : s2.regs c.reg = load s.mem (src.address s) := (hother2 _ hcd hc).trans hreg1
  have hval2 : s3.regs d.reg = load s.mem (src.address s + ofNat 64 8) := by
    rw [hother3 _ hd, hreg2, hmem1, hfrom2]
  have hcopy1 := store_copy s.mem (dest.address s) (src.address s) (n := 0) (by decide)
  have hcopy2 := store_copy s.mem (dest.address s) (src.address s) (n := 8) (by decide)
  rw [copy_zero, BitVec.add_zero, BitVec.add_zero] at hcopy1
  rw [hmem4, hto2, hval2, hmem3, hto1, hval1, hmem2, hmem1, hcopy1, hcopy2]

theorem sret_qword_run {src : Buffer} {i : Nat} {m : Memory}
    (hpointer : pointer ≠ SSE_SCRATCH_GPR) (hsrc : src.disp.toInt + 8 * i < 2 ^ 31)
    (hi : 8 * i + 8 ≤ size) (hsize : 8 * i < 2 ^ 31)
    (hdisj : Apart (s.regs pointer) (src.address s) size)
    (hmem : s.mem = copy m (s.regs pointer) (src.address s) (8 * i)) :
    ∃ s', run (sret_qword pointer src.base src.disp i) s = some s' ∧
      s'.mem = copy m (s.regs pointer) (src.address s) (8 * (i + 1)) ∧
      ∀ r, r ≠ SSE_SCRATCH_GPR → s'.regs r = s.regs r := by
  have hoff : Int32.ofNat i * 8 = Int32.ofNat (8 * i) := by
    rw [Nat.mul_comm, Int32.ofNat_mul]
    rfl
  refine ⟨_, rfl, ?_, fun r hr => State.set_other hr⟩
  have hfrom : s.address src.base (src.disp + Int32.ofNat i * 8)
      = src.address s + ofNat 64 (8 * i) := by
    rw [hoff]
    exact address_next (by exact_mod_cast hsrc)
  have hzero : (0 : Int32).toInt + (8 * i : Nat) < 2 ^ 31 := by
    rw [Int32.toInt_zero]
    omega
  have hto : ∀ v, (s.set SSE_SCRATCH_GPR v).address pointer (Int32.ofNat i * 8)
      = s.regs pointer + ofNat 64 (8 * i) := by
    intro v
    unfold State.address
    rw [State.set_other hpointer, hoff, ← Int32.zero_add (Int32.ofNat (8 * i)), extend_add hzero]
    exact congrArg _ (BitVec.zero_add _)
  dsimp only [State.set_mem]
  rw [hto, State.set_same, hfrom, hmem, load_copy hdisj hi, store_copy _ _ _ (by omega)]
  rfl

/-- Each turn of the copy loop makes the copied block one quad longer. -/
theorem sret_qwords_run {src : Buffer} (hpointer : pointer ≠ SSE_SCRATCH_GPR)
    (hbase : src.base ≠ SSE_SCRATCH_GPR)
    (hdisj : Apart (s.regs pointer) (src.address s) size)
    (hsrc : src.disp.toInt + size < 2 ^ 31 + 8) (hsize : size < 2 ^ 31 + 8) :
    ∀ k, 8 * k ≤ size → ∃ s',
      run ((List.range k).flatMap (sret_qword pointer src.base src.disp)) s = some s' ∧
      s'.mem = copy s.mem (s.regs pointer) (src.address s) (8 * k) ∧
      ∀ r, r ≠ SSE_SCRATCH_GPR → s'.regs r = s.regs r := by
  intro k
  induction k with
  | zero =>
    intro _
    exact ⟨s, rfl, (copy_zero ..).symm, fun _ _ => rfl⟩
  | succ k ih =>
    intro hk
    obtain ⟨s1, hrun, hmem, hother⟩ := ih (by omega)
    have haddr : src.address s1 = src.address s := by
      unfold Buffer.address State.address
      rw [hother _ hbase]
    have hreg := hother _ hpointer
    rw [← hreg, ← haddr] at hdisj hmem
    obtain ⟨s2, hrun2, hmem2, hother2⟩ := sret_qword_run (i := k) hpointer (by omega) (by omega)
      (by omega) hdisj hmem
    refine ⟨s2, ?_, ?_, ?_⟩
    · rw [List.range_succ, List.flatMap_append, run_append hrun]
      rw [List.flatMap_cons, List.flatMap_nil, List.append_nil]
      exact hrun2
    · rw [hmem2, hreg, haddr]
    · intro r hr
      exact (hother2 r hr).trans (hother r hr)

/-- The prelude, and the store of the callee through the pointer that it sets. -/
theorem sret_run {src dest : Buffer} {k : Nat} (hpointer : pointer ≠ SSE_SCRATCH_GPR)
    (hbase : src.base ≠ SSE_SCRATCH_GPR)
    (hsrcp : src.base ≠ pointer) (hdisj : Apart (dest.address s) (src.address s) (8 * k))
    (hsrc : src.disp.toInt + 8 * k < 2 ^ 31 + 8) (hsize : 8 * k < 2 ^ 31 + 8) :
    ∃ s', run ([lea_reg_from_mem pointer dest.base dest.disp]
        ++ ((List.range k).flatMap (sret_qword pointer src.base src.disp)
          ++ [mov_reg_from_reg abi.RAX pointer])) s = some s' ∧
      s'.mem = copy s.mem (dest.address s) (src.address s) (8 * k) := by
  have hlea : run [lea_reg_from_mem pointer dest.base dest.disp] s
      = some (s.set pointer (dest.address s)) := rfl
  have haddr : src.address (s.set pointer (dest.address s)) = src.address s := by
    unfold Buffer.address State.address
    rw [State.set_other hsrcp]
  have hreg : (s.set pointer (dest.address s)).regs pointer = dest.address s := State.set_same ..
  have hdisj' := hdisj
  rw [← hreg, ← haddr] at hdisj'
  obtain ⟨s1, hrun, hmem, -⟩ := sret_qwords_run hpointer hbase hdisj' (by exact_mod_cast hsrc) hsize k
    (Nat.le_refl _)
  rw [hreg, haddr] at hmem
  refine ⟨s1.set abi.RAX (s1.regs pointer), ?_, hmem⟩
  rw [run_append hlea, run_append hrun]
  rfl

/-! ## What a return copies -/

/-- The sequence copies `n` bytes of `src` to `dest` and changes no other byte, from
every state where the two records, of `size` bytes, lie apart. -/
def Copies (sequence : Outcome (List Instruction)) (src dest : Buffer) (size n : Nat) : Prop :=
  ∃ instrs, sequence = .ok instrs ∧
    ∀ s, Apart (dest.address s) (src.address s) size →
      ∃ s', run instrs s = some s' ∧ s'.mem = copy s.mem (dest.address s) (src.address s) n

/-- A size in whole eightbytes. -/
def whole (n : Nat) : Nat := 8 * ((n + 7) / 8)

/-- Every eightbyte that the sequences address from a buffer, or from the hidden
pointer, has a displacement of 32 bits. -/
structure InReach (layout : abi.RecordLayout) (src dest : Buffer) : Prop where
  block : whole layout.size.toNat < 2 ^ 31 + 8
  src : src.disp.toInt + whole layout.size.toNat < 2 ^ 31 + 8
  dest : layout.size.toNat ≤ 16 → dest.disp.toInt + whole layout.size.toNat < 2 ^ 31 + 8

variable {layout : abi.RecordLayout} {src dest : Buffer}

theorem copies_nothing : Copies (.ok []) src dest size 0 := by
  refine ⟨[], rfl, fun s _ => ⟨s, rfl, ?_⟩⟩
  exact (copy_zero ..).symm

theorem copies_one (hdest : dest.Addressable) (hc : c.reg ∈ [abi.RAX, abi.RDX] ∨ 16 ≤ c.reg.num) :
    Copies (.ok (c.fetch src.base src.disp ++ c.deposit dest.base dest.disp)) src dest size 8 := by
  have hne : dest.base ≠ c.reg := by
    apply hdest.ne
    refine hc.imp_left ?_
    intro h
    rcases List.mem_cons.mp h with h | h
    · simp [h]
    · simp [List.mem_singleton.mp h]
  exact ⟨_, rfl, fun s _ => returned_one hne (hdest.ne (.inl (by decide))) s⟩

theorem copies_two {c d : Carrier} {size : Nat} (hsrc : src.Addressable) (hdest : dest.Addressable)
    (hsrcreach : src.disp.toInt + 8 < 2 ^ 31) (hdestreach : dest.disp.toInt + 8 < 2 ^ 31)
    (hregs : (c.reg, d.reg) ∈ [(abi.RAX, abi.RDX), (abi.RAX, abi.XMM0), (abi.XMM0, abi.RAX),
      (abi.XMM0, abi.XMM1)]) :
    Copies (.ok ((c.fetch src.base src.disp ++ d.fetch src.base (src.disp + 8))
      ++ (c.deposit dest.base dest.disp ++ d.deposit dest.base (dest.disp + 8)))) src dest size 16 := by
  obtain ⟨hcd, hc, hd, hregs⟩ : c.reg ≠ d.reg ∧ c.reg ≠ SSE_SCRATCH_GPR ∧ d.reg ≠ SSE_SCRATCH_GPR ∧
      ∀ r ∈ [c.reg, d.reg, SSE_SCRATCH_GPR],
        r ∈ [abi.RAX, abi.RDX, abi.RCX, abi.RDI, abi.R10] ∨ 16 ≤ r.num := by
    generalize c.reg = rc at hregs ⊢
    generalize d.reg = rd at hregs ⊢
    simp only [List.mem_cons, List.not_mem_nil, or_false, Prod.mk.injEq] at hregs
    rcases hregs with ⟨rfl, rfl⟩ | ⟨rfl, rfl⟩ | ⟨rfl, rfl⟩ | ⟨rfl, rfl⟩
    all_goals decide
  exact ⟨_, rfl, fun s _ => returned_two hcd hc hd (fun r hr => hsrc.ne (hregs r hr))
    (fun r hr => hdest.ne (hregs r hr)) hsrcreach hdestreach s⟩

/-- The hidden pointer copies what is a whole number of quads. -/
theorem copies_through_pointer (hsrc : src.Addressable)
    (hpointer : pointer ∈ [abi.RCX, abi.RDI]) (hreach : InReach layout src dest)
    (hpos : layout.size.toNat ≠ 0) (hmod : layout.size.toNat % 8 = 0) :
    Copies (do
      let store ← callee_sret_store pointer layout.size.toUInt32 src.base src.disp
      return [lea_reg_from_mem pointer dest.base dest.disp] ++ store) src dest
      layout.size.toNat layout.size.toNat := by
  obtain ⟨hblock, hsrcreach, -⟩ := hreach
  unfold whole at hblock hsrcreach
  have hbytes : layout.size.toUInt32.toNat = layout.size.toNat := by
    rw [UInt64.toNat_toUInt32]
    exact Nat.mod_eq_of_lt (by omega)
  have hne : layout.size.toUInt32 ≠ 0 := by
    intro h
    rw [h] at hbytes
    exact hpos hbytes.symm
  have heven : ¬ layout.size.toUInt32 % 8 ≠ 0 := by
    rw [not_not, ← UInt32.toNat_inj, UInt32.toNat_mod, hbytes]
    exact hmod
  have hk : 8 * (layout.size.toUInt32 / 8).toNat = layout.size.toNat := by
    rw [UInt32.toNat_div, hbytes]
    exact Nat.mul_div_cancel' (Nat.dvd_of_mod_eq_zero hmod)
  have hptr : pointer ≠ SSE_SCRATCH_GPR ∧ src.base ≠ pointer := by
    rcases List.mem_pair.mp hpointer with rfl | rfl
    all_goals exact ⟨by decide, hsrc.ne (.inl (by decide))⟩
  unfold callee_sret_store
  rw [if_neg hne, if_neg heven]
  refine ⟨_, rfl, ?_⟩
  intro s hdisj
  rw [← hk] at hdisj ⊢
  exact sret_run hptr.1 (hsrc.ne (.inl (by decide))) hptr.2 hdisj (by omega) (by omega)

/-- Other sizes run into an assertion. -/
theorem sret_store_panics {base : RegId} {disp : Int32} (hmod : layout.size.toNat % 8 ≠ 0) :
    callee_sret_store pointer layout.size.toUInt32 base disp = .error .panic := by
  unfold callee_sret_store
  split
  · rfl
  · rw [if_pos]
    intro h
    have := congrArg UInt32.toNat h
    rw [UInt32.toNat_mod, UInt64.toNat_toUInt32] at this
    simp at this
    omega

/-! ## The placements -/

theorem sysv_copies_one {c : abi.AggregateClass} (hdest : dest.Addressable) (hpos : layout.size ≠ 0)
    (hclass : abi.classify_sysv_aggregate layout = [c]) (hc : abi.Registers c) :
    Copies (sysv_return layout src dest) src dest size 8 := by
  unfold sysv_return abi.sysv_return_placement_from_layout
  rw [if_neg hpos, hclass]
  rcases hc with rfl | rfl
  · exact copies_one (c := .gpr abi.RAX) hdest (.inl (by decide))
  · exact copies_one (c := .xmm abi.XMM0) hdest (.inr (by decide))

theorem sysv_copies_two {c d : abi.AggregateClass} (hsrc : src.Addressable)
    (hdest : dest.Addressable)
    (hsrcreach : src.disp.toInt + 8 < 2 ^ 31) (hdestreach : dest.disp.toInt + 8 < 2 ^ 31)
    (hpos : layout.size ≠ 0) (hclass : abi.classify_sysv_aggregate layout = [c, d])
    (hc : abi.Registers c) (hd : abi.Registers d) :
    Copies (sysv_return layout src dest) src dest size 16 := by
  have htwo := fun (a b : Carrier) => @copies_two src dest a b size hsrc hdest hsrcreach hdestreach
  unfold sysv_return abi.sysv_return_placement_from_layout
  rw [if_neg hpos, hclass]
  rcases hc with rfl | rfl
  · rcases hd with rfl | rfl
    · exact htwo (.gpr abi.RAX) (.gpr abi.RDX) (by decide)
    · exact htwo (.gpr abi.RAX) (.xmm abi.XMM0) (by decide)
  · rcases hd with rfl | rfl
    · exact htwo (.xmm abi.XMM0) (.gpr abi.RAX) (by decide)
    · exact htwo (.xmm abi.XMM0) (.xmm abi.XMM1) (by decide)

theorem sysv_memory (hsize : 16 < layout.size.toNat) :
    abi.sysv_return_placement_from_layout layout = .Memory := by
  have hgt : layout.size > 16 := UInt64.lt_iff_toNat_lt.mpr hsize
  have hpos : layout.size ≠ 0 := by
    intro h
    rw [h] at hsize
    exact absurd hsize (by decide)
  unfold abi.sysv_return_placement_from_layout abi.classify_sysv_aggregate
  rw [if_neg hpos, if_pos hgt]
  rfl

theorem ms_copies_one (hdest : dest.Addressable)
    (hsize : layout.size = 1 ∨ layout.size = 2 ∨ layout.size = 4 ∨ layout.size = 8) :
    Copies (ms_return layout src dest) src dest size 8 := by
  have hpos : layout.size ≠ 0 := by
    rcases hsize with h | h | h | h <;> rw [h] <;> decide
  unfold ms_return abi.ms_return_placement_from_layout abi.classify_ms_aggregate
  rw [if_neg hpos, if_pos hsize]
  split_ifs
  · exact copies_one (c := .xmm abi.XMM0) hdest (.inr (by decide))
  · exact copies_one (c := .gpr abi.RAX) hdest (.inl (by decide))

theorem ms_memory (hpos : layout.size ≠ 0)
    (hsize : ¬ (layout.size = 1 ∨ layout.size = 2 ∨ layout.size = 4 ∨ layout.size = 8)) :
    abi.ms_return_placement_from_layout layout = .Memory := by
  have hfloat : abi.single_float layout = false := by
    unfold abi.single_float
    split
    · simp only [not_or] at hsize
      simp [hsize]
    · rfl
  unfold abi.ms_return_placement_from_layout abi.classify_ms_aggregate
  rw [if_neg hpos, if_neg (by simp [hfloat]), if_neg hsize]
  rfl

/-- Sizes that a register of the MS convention takes, and the empty record. -/
def ms_register_sizes : List Nat := [0, 1, 2, 4, 8]

/-- The System V sequences copy the record in whole eightbytes, and refuse a larger
one that is not made of whole quads. -/
theorem sysv_return_copies (hnat : abi.NaturallyAligned layout) (hused : abi.EightbytesUsed layout)
    (hsrc : src.Addressable) (hdest : dest.Addressable) (hreach : InReach layout src dest) :
    if 16 < layout.size.toNat ∧ layout.size.toNat % 8 ≠ 0 then
      sysv_return layout src dest = .error .panic
    else Copies (sysv_return layout src dest) src dest layout.size.toNat (whole layout.size.toNat) := by
  split
  · rename_i h
    unfold sysv_return
    rw [sysv_memory h.1]
    dsimp only [sysv_callee_sret_store]
    rw [sret_store_panics h.2]
    rfl
  · rename_i h
    by_cases hbig : 16 < layout.size.toNat
    · -- through the hidden pointer
      have hmod : layout.size.toNat % 8 = 0 := by_contra fun hmod => h ⟨hbig, hmod⟩
      have hwhole : whole layout.size.toNat = layout.size.toNat := by
        unfold whole
        omega
      rw [hwhole]
      unfold sysv_return
      rw [sysv_memory hbig]
      exact copies_through_pointer hsrc (by decide) hreach (by omega) hmod
    · by_cases hzero : layout.size = 0
      · have hwhole : whole layout.size.toNat = 0 := by
          rw [hzero]
          rfl
        rw [hwhole]
        unfold sysv_return abi.sysv_return_placement_from_layout
        rw [if_pos hzero]
        exact copies_nothing
      · -- through one or two registers
        obtain ⟨hregs, hlen⟩ := abi.classify_registers hnat hused hzero (by omega)
        have hpos : layout.size.toNat ≠ 0 := fun h => hzero (UInt64.toNat_inj.mp h)
        have hsrcreach := hreach.src
        have hdestreach := hreach.dest (by omega)
        by_cases hone : layout.size.toNat ≤ 8
        · have hwhole : whole layout.size.toNat = 8 := by
            unfold whole
            omega
          obtain ⟨c, hc⟩ := List.length_eq_one_iff.mp (hlen.trans (by omega))
          rw [hwhole]
          exact sysv_copies_one hdest hzero hc (hregs c (by simp [hc]))
        · have hwhole : whole layout.size.toNat = 16 := by
            unfold whole
            omega
          rw [hwhole] at hsrcreach hdestreach ⊢
          obtain ⟨c, d, hcd⟩ := List.length_eq_two.mp (hlen.trans (by omega))
          exact sysv_copies_two hsrc hdest (by omega) (by omega) hzero hcd (hregs c (by simp [hcd]))
            (hregs d (by simp [hcd]))

/-- The MS sequences copy a record of a register's size as a quad, and a larger one
where it is made of whole quads. -/
theorem ms_return_copies (hsrc : src.Addressable) (hdest : dest.Addressable)
    (hreach : InReach layout src dest) :
    if layout.size.toNat ∉ ms_register_sizes ∧ layout.size.toNat % 8 ≠ 0 then
      ms_return layout src dest = .error .panic
    else Copies (ms_return layout src dest) src dest layout.size.toNat (whole layout.size.toNat) := by
  by_cases hzero : layout.size = 0
  · have hwhole : whole layout.size.toNat = 0 := by
      rw [hzero]
      rfl
    rw [if_neg (fun h => h.1 (by simp [hzero, ms_register_sizes])), hwhole]
    unfold ms_return abi.ms_return_placement_from_layout
    rw [if_pos hzero]
    exact copies_nothing
  · by_cases hreg : layout.size = 1 ∨ layout.size = 2 ∨ layout.size = 4 ∨ layout.size = 8
    · have hin : layout.size.toNat ∈ ms_register_sizes ∧ whole layout.size.toNat = 8 := by
        rcases hreg with h | h | h | h <;> rw [h] <;> decide
      rw [if_neg (fun h => h.1 hin.1), hin.2]
      exact ms_copies_one hdest hreg
    · have hmem := ms_memory hzero hreg
      have hout : layout.size.toNat ∉ ms_register_sizes := by
        simp only [ms_register_sizes, List.mem_cons, List.not_mem_nil, or_false, not_or]
        simp only [← UInt64.toNat_inj, not_or] at hzero hreg
        exact ⟨hzero, hreg⟩
      split
      · rename_i h
        unfold ms_return
        rw [hmem]
        dsimp only [ms_callee_sret_store]
        rw [sret_store_panics h.2]
        rfl
      · rename_i h
        have hmod : layout.size.toNat % 8 = 0 := by_contra fun hmod => h ⟨hout, hmod⟩
        have hwhole : whole layout.size.toNat = layout.size.toNat := by
          unfold whole
          omega
        rw [hwhole]
        unfold ms_return
        rw [hmem]
        exact copies_through_pointer hsrc (by decide) hreach
          (fun h => hzero (UInt64.toNat_inj.mp h)) hmod

/-- A returned record arrives in whole eightbytes, and nothing else changes; a record
that goes through the hidden pointer is refused unless it is made of whole quads. -/
theorem aggregate_return_copies (layout : abi.RecordLayout) (src dest : Buffer)
    (hnat : abi.NaturallyAligned layout) (hused : abi.EightbytesUsed layout)
    (hsrc : src.Addressable) (hdest : dest.Addressable) (hreach : InReach layout src dest) :
    (if 16 < layout.size.toNat ∧ layout.size.toNat % 8 ≠ 0 then
        sysv_return layout src dest = .error .panic
      else Copies (sysv_return layout src dest) src dest layout.size.toNat
        (whole layout.size.toNat)) ∧
    if layout.size.toNat ∉ ms_register_sizes ∧ layout.size.toNat % 8 ≠ 0 then
      ms_return layout src dest = .error .panic
    else Copies (ms_return layout src dest) src dest layout.size.toNat (whole layout.size.toNat) :=
  ⟨sysv_return_copies hnat hused hsrc hdest hreach, ms_return_copies hsrc hdest hreach⟩

/-! ## Two words, and half of one -/

/-- From `[rbx]` to `[rsi + 16]`. -/
def fromRbx : Buffer := ⟨⟨3⟩, 0⟩

def toRsi : Buffer := ⟨⟨6⟩, 16⟩

theorem fromRbx_addressable : fromRbx.Addressable := ⟨by decide, by decide⟩

theorem toRsi_addressable : toRsi.Addressable := ⟨by decide, by decide⟩

/-- The layout of two `u64`. -/
def twoWords : abi.RecordLayout := ⟨16, 8, [⟨0, 8, false⟩, ⟨8, 8, false⟩]⟩

theorem two_words_returned :
    Copies (sysv_return twoWords fromRbx toRsi) fromRbx toRsi 16 16 ∧
      Copies (ms_return twoWords fromRbx toRsi) fromRbx toRsi 16 16 := by
  have hlayout : finalise_record_layout [8, 8] = some twoWords := rfl
  obtain ⟨hnat, hused⟩ := finalised_layout (by decide) hlayout
  exact aggregate_return_copies twoWords fromRbx toRsi hnat hused fromRbx_addressable
    toRsi_addressable ⟨by decide, by decide, by decide⟩

/-- The layout of one `u32`. -/
def halfWord : abi.RecordLayout := ⟨4, 4, [⟨0, 4, false⟩]⟩

/-- The four bytes after a returned `u32` change. -/
theorem half_word_spills :
    ¬ Copies (sysv_return halfWord fromRbx toRsi) fromRbx toRsi 4 4 := by
  rintro ⟨instrs, hseq, hcopies⟩
  obtain ⟨instrs', hseq', hcopies'⟩ : Copies (sysv_return halfWord fromRbx toRsi) fromRbx toRsi 4 8 :=
    sysv_copies_one toRsi_addressable (by decide) (c := .Integer) (by decide) (.inl rfl)
  cases hseq.symm.trans hseq'
  let s : State := ⟨fun _ => 0, fun x => if x = 4 then 1 else 0⟩
  have hdisj : Apart (toRsi.address s) (fromRbx.address s) 4 := by
    unfold Apart
    decide
  obtain ⟨s1, hrun, hmem⟩ := hcopies s hdisj
  obtain ⟨s2, hrun', hmem'⟩ := hcopies' s hdisj
  cases hrun.symm.trans hrun'
  have hbyte := congrFun (hmem.symm.trans hmem') 20
  revert hbyte
  decide

end paideia_as_elaborator.aggregate_return
