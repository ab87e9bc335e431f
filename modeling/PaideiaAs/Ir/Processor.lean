-- What the optimisation passes rely on of the processor: its instructions have
-- footprints. Beside it a processor that runs the moves and pushes of the passes'
-- small examples.
import PaideiaAs.Encoder.Instruction
import PaideiaAs.Lib.Assoc
import PaideiaAs.Lib.Footprint

namespace paideia_as_ir.opt

open paideia_as_runtime Footprint

/-- A processor over its locations: registers, flags, memory cells and whatever
else its instructions read and write. -/
structure Processor (L V : Type) extends Machine Instruction L V where
  memory : Set L

/-! ## A processor of moves and pushes -/

inductive Cell where
  | reg (r : RegId)
  | byte (addr : BitVec 64)
  deriving DecidableEq

abbrev Cells := Cell → BitVec 64

def rsp : RegId := ⟨4⟩

/-- The eight bytes from an address. -/
def quad (addr : BitVec 64) : List Cell :=
  (List.range 8).map fun k => .byte (addr + BitVec.ofNat 64 k)

def loadQuad (s : Cells) (addr : BitVec 64) : BitVec 64 :=
  (List.range 8).foldr (fun k v => s (.byte (addr + BitVec.ofNat 64 k)) <<< (8 * k) ||| v) 0

def storeQuad (addr v : BitVec 64) : List (Cell × BitVec 64) :=
  (List.range 8).map fun k => (.byte (addr + BitVec.ofNat 64 k), v >>> (8 * k) &&& 255)

def effective (s : Cells) (base : RegId) (disp : Int32) : BitVec 64 :=
  s (.reg base) + disp.toBitVec.signExtend 64

def cellsRead (i : Instruction) (s : Cells) : List Cell :=
  match i.mnemonic, i.operands with
  | .Mov, [.Reg _, .MemSib base none _ disp] => .reg base :: quad (effective s base disp)
  | .Mov, [.MemSib base none _ _, .Reg r] => [.reg base, .reg r]
  | .Push, [.Reg r] => [.reg rsp, .reg r]
  | _, _ => []

def cellsAssigned (i : Instruction) (s : Cells) : List (Cell × BitVec 64) :=
  match i.mnemonic, i.operands with
  | .Mov, [.Reg d, .Imm64 v] => [(.reg d, v.toBitVec)]
  | .Mov, [.Reg d, .MemSib base none _ disp] => [(.reg d, loadQuad s (effective s base disp))]
  | .Mov, [.MemSib base none _ disp, .Reg r] => storeQuad (effective s base disp) (s (.reg r))
  | .Push, [.Reg r] => (.reg rsp, s (.reg rsp) - 8) :: storeQuad (s (.reg rsp) - 8) (s (.reg r))
  | _, _ => []

theorem loadQuad_congr {s t : Cells} {addr : BitVec 64} (h : ∀ c ∈ quad addr, s c = t c) :
    loadQuad t addr = loadQuad s addr := by
  unfold loadQuad
  apply List.foldr_ext
  intro k hk v
  rw [h _ (List.mem_map_of_mem hk)]

theorem cells_local (i : Instruction) (s t : Cells) (h : ∀ c ∈ cellsRead i s, s c = t c) :
    cellsRead i t = cellsRead i s ∧ cellsAssigned i t = cellsAssigned i s := by
  unfold cellsRead at h ⊢
  unfold cellsAssigned
  split at h
  · rename_i base _ disp hm ho
    have hbase : s (.reg base) = t (.reg base) := h _ (.head _)
    have haddr : effective t base disp = effective s base disp := by
      unfold effective
      rw [hbase]
    rw [hm, ho]
    dsimp only
    rw [haddr, loadQuad_congr fun c hc => h c (List.mem_cons_of_mem _ hc)]
    exact ⟨rfl, rfl⟩
  · rename_i base _ disp r hm ho
    have hbase : s (.reg base) = t (.reg base) := h _ (.head _)
    have hr : s (.reg r) = t (.reg r) := h _ (by simp)
    rw [hm, ho]
    dsimp only
    unfold effective
    rw [hbase, hr]
    exact ⟨rfl, rfl⟩
  · rename_i r hm ho
    have hsp : s (.reg rsp) = t (.reg rsp) := h _ (.head _)
    have hr : s (.reg r) = t (.reg r) := h _ (by simp)
    rw [hm, ho]
    dsimp only
    rw [hsp, hr]
    exact ⟨rfl, rfl⟩
  · rename_i hload hstore hpush
    refine ⟨rfl, ?_⟩
    split
    · rfl
    · rename_i hm ho
      exact absurd ho (hload _ _ _ _ hm)
    · rename_i hm ho
      exact absurd ho (hstore _ _ _ _ hm)
    · rename_i hm ho
      exact absurd ho (hpush _ hm)
    · rfl

/-- The processor that runs the moves and pushes above and passes over the rest. -/
def movesAndPushes : Processor Cell (BitVec 64) where
  toMachine := .ofAssignments cellsRead cellsAssigned cells_local
  memory := {c | ∃ addr, c = .byte addr}

/-- An instruction of the 64-bit mode without a hint. -/
def plain64 (mnemonic : Mnemonic) (operands : List Operand) : Instruction :=
  ⟨mnemonic, operands, none, .Mode64⟩

end paideia_as_ir.opt
