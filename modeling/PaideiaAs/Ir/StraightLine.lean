-- Straight-line code over registers, memory and flags: what the moves, the
-- arithmetic, the stack operations and the conditional jumps of the 64-bit mode
-- read and write. A jump only notes whether it is taken.
import PaideiaAs.Ir.Abi
import PaideiaAs.Ir.Schedule
import PaideiaAs.Lib.ByteMemory

namespace paideia_as_ir.opt.peephole

open paideia_as_runtime paideia_as_ir.opt.schedule Footprint ByteMemory

/-! ## Cells -/

inductive Flag where
  | CF
  | PF
  | ZF
  | SF
  | OF
  deriving DecidableEq

/-- `taken id` is 1 where the conditional jump `id` was taken. -/
inductive Cell where
  | reg (r : RegId)
  | seg (s : SegReg)
  | byte (a : Address)
  | flag (f : Flag)
  | taken (id : IrNodeId)
  deriving DecidableEq

abbrev Cells := Cell → BitVec 64

def Cells.memory (s : Cells) : Memory := fun a => (s (.byte a)).setWidth 8

def quad (a : Address) : List Cell :=
  (List.range 8).map fun k => .byte (a + BitVec.ofNat 64 k)

def stored (a : Address) (v : BitVec 64) : List (Cell × BitVec 64) :=
  (List.range 8).map fun k =>
    (.byte (a + BitVec.ofNat 64 k), (v.extractLsb' (8 * k) 8).setWidth 64)

/-- What is left open: where symbols are, and what goes into the flags that an
instruction leaves undefined, by its operands. -/
structure Cpu where
  symbol : String → Address
  undefined : Mnemonic → Flag → BitVec 64 → BitVec 64 → BitVec 64

/-! ## Operands -/

def factor : Scale → BitVec 64
  | .X1 => 1
  | .X2 => 2
  | .X4 => 4
  | .X8 => 8

def registers : Operand → List Cell
  | .MemSib base none _ _ => [.reg base]
  | .MemSib base (some index) _ _ => [.reg base, .reg index]
  | _ => []

variable (cpu : Cpu)

/-- The address of a memory operand. A symbol stands for the memory at it. -/
def Cpu.address (s : Cells) : Operand → Option Address
  | .MemSib base none _ disp => some (s (.reg base) + disp.toBitVec.signExtend 64)
  | .MemSib base (some index) scale disp =>
    some (s (.reg base) + s (.reg index) * factor scale + disp.toBitVec.signExtend 64)
  | .MemDisp disp => some (disp.toBitVec.signExtend 64)
  | .MemRipRelSym name addend | .SymbolRef name addend =>
    some (cpu.symbol name + addend.toBitVec.signExtend 64)
  | _ => none

def Cpu.loaded (s : Cells) (o : Operand) : BitVec 64 :=
  match cpu.address s o with
  | some a => load s.memory a
  | none => 0

/-- What a load reads: the registers of its address, and the quad there. -/
def Cpu.loads (s : Cells) (o : Operand) : List Cell :=
  registers o ++
    match cpu.address s o with
    | some a => quad a
    | none => []

/-- The operands without an address have no place in these instructions. -/
def Cpu.value (s : Cells) : Operand → BitVec 64
  | .Reg r => s (.reg r)
  | .SegReg x => s (.seg x)
  | .Imm64 imm => imm.toBitVec
  | o => cpu.loaded s o

/-- The cells that decide the value of an operand. -/
def Cpu.cells (s : Cells) : Operand → List Cell
  | .Reg r => [.reg r]
  | .SegReg x => [.seg x]
  | .Imm64 _ => []
  | o => cpu.loads s o

def Cpu.stores (s : Cells) (o : Operand) (v : BitVec 64) : List (Cell × BitVec 64) :=
  match cpu.address s o with
  | some a => stored a v
  | none => []

def Cpu.put (s : Cells) (o : Operand) (v : BitVec 64) : List (Cell × BitVec 64) :=
  match o with
  | .Reg r => [(.reg r, v)]
  | .SegReg x => [(.seg x, v)]
  | o => cpu.stores s o v

/-! ## Flags -/

def bit (b : Bool) : BitVec 64 := if b then 1 else 0

def even_parity (v : BitVec 64) : Bool := (List.range 8).countP v.getLsbD % 2 == 0

def result_flags (carry overflow : Bool) (v : BitVec 64) : List (Cell × BitVec 64) :=
  [(.flag .CF, bit carry), (.flag .PF, bit (even_parity v)), (.flag .ZF, bit (v == 0)),
    (.flag .SF, bit v.msb), (.flag .OF, bit overflow)]

def difference_flags (x y : BitVec 64) : List (Cell × BitVec 64) :=
  result_flags (BitVec.usubOverflow x y) (BitVec.ssubOverflow x y) (x - y)

/-- A product says in the carry and the overflow whether it is cut. -/
def Cpu.product (d : RegId) (x y : BitVec 64) : List (Cell × BitVec 64) :=
  let cut := bit (BitVec.smulOverflow x y)
  let other := fun f => (Cell.flag f, cpu.undefined .Imul f x y)
  [(.reg d, x * y), (.flag .CF, cut), other .PF, other .ZF, other .SF, (.flag .OF, cut)]

/-- The count is taken modulo 64, and a shift by 0 keeps the flags. -/
def Cpu.shifted (d : RegId) (x y : BitVec 64) : List (Cell × BitVec 64) :=
  let n := y.toNat % 64
  let v := x <<< n
  let carry := x.getLsbD (64 - n)
  if n = 0 then [(.reg d, v)]
  else
    [(.reg d, v), (.flag .CF, bit carry), (.flag .PF, bit (even_parity v)),
      (.flag .ZF, bit (v == 0)), (.flag .SF, bit v.msb),
      (.flag .OF, if n = 1 then bit (v.msb ^^ carry) else cpu.undefined .Shl .OF x y)]

def cond_flags : Cond → List Flag
  | .Eq | .Ne | .Zero | .NonZero => [.ZF]
  | .Lt | .Ge => [.SF, .OF]
  | .Le | .Gt => [.ZF, .SF, .OF]
  | .Below | .AboveOrEqual => [.CF]
  | .BelowOrEqual | .Above => [.CF, .ZF]
  | .Sign | .NotSign => [.SF]
  | .Overflow | .NotOverflow => [.OF]
  | .Parity | .NotParity => [.PF]

def cond_holds (flag : Flag → Bool) : Cond → Bool
  | .Eq | .Zero => flag .ZF
  | .Ne | .NonZero => !flag .ZF
  | .Lt => flag .SF != flag .OF
  | .Ge => flag .SF == flag .OF
  | .Le => flag .ZF || flag .SF != flag .OF
  | .Gt => !flag .ZF && flag .SF == flag .OF
  | .Below => flag .CF
  | .AboveOrEqual => !flag .CF
  | .BelowOrEqual => flag .CF || flag .ZF
  | .Above => !flag .CF && !flag .ZF
  | .Sign => flag .SF
  | .NotSign => !flag .SF
  | .Overflow => flag .OF
  | .NotOverflow => !flag .OF
  | .Parity => flag .PF
  | .NotParity => !flag .PF

def Cpu.reads (e : Entry) (s : Cells) : List Cell :=
  match e.instr.mnemonic, e.instr.operands with
  | .Mov, [dst, src] => registers dst ++ cpu.cells s src
  | .Add, [.Reg d, src] => .reg d :: cpu.cells s src
  | .Sub, [.Reg d, src] => .reg d :: cpu.cells s src
  | .Cmp, [a, b] => cpu.cells s a ++ cpu.cells s b
  | .Test, [a, b] => cpu.cells s a ++ cpu.cells s b
  | .Imul, [.Reg d, src] => .reg d :: cpu.cells s src
  | .Imul, [.Reg _, src, .Imm64 _] => cpu.cells s src
  | .Shl, [.Reg d, count] => .reg d :: cpu.cells s count
  | .Push, [src] => .reg abi.RSP :: cpu.cells s src
  | .Pop, [.Reg _] => .reg abi.RSP :: quad (s (.reg abi.RSP))
  | .Jcc cond, _ => (cond_flags cond).map .flag
  | _, _ => []

/-- A form that no encoder takes does nothing here. -/
def Cpu.assigned (e : Entry) (s : Cells) : List (Cell × BitVec 64) :=
  match e.instr.mnemonic, e.instr.operands with
  | .Mov, [dst, src] => cpu.put s dst (cpu.value s src)
  | .Add, [.Reg d, src] =>
    let x := s (.reg d)
    let y := cpu.value s src
    (.reg d, x + y) :: result_flags (BitVec.uaddOverflow x y) (BitVec.saddOverflow x y) (x + y)
  | .Sub, [.Reg d, src] =>
    let x := s (.reg d)
    let y := cpu.value s src
    (.reg d, x - y) :: difference_flags x y
  | .Cmp, [a, b] => difference_flags (cpu.value s a) (cpu.value s b)
  | .Test, [a, b] => result_flags false false (cpu.value s a &&& cpu.value s b)
  | .Imul, [.Reg d, src] => cpu.product d (s (.reg d)) (cpu.value s src)
  | .Imul, [.Reg d, src, .Imm64 imm] => cpu.product d (cpu.value s src) imm.toBitVec
  | .Shl, [.Reg d, count] => cpu.shifted d (s (.reg d)) (cpu.value s count)
  | .Push, [src] =>
    let top := s (.reg abi.RSP) - 8
    (.reg abi.RSP, top) :: stored top (cpu.value s src)
  | .Pop, [.Reg d] =>
    let top := s (.reg abi.RSP)
    [(.reg d, load s.memory top), (.reg abi.RSP, top + 8)]
  | .Jcc cond, _ => [(.taken e.id, bit (cond_holds (fun f => s (.flag f) != 0) cond))]
  | _, _ => []

/-! ## What is read decides what is written -/

section

variable {cpu : Cpu} {s t : Cells}

theorem load_local {a : Address} (h : ∀ c ∈ quad a, s c = t c) : load t.memory a = load s.memory a := by
  apply load_congr
  intro k hk
  unfold Cells.memory
  rw [h _ (List.mem_map_of_mem (List.mem_range.mpr hk))]

variable {o : Operand}

theorem address_local (h : ∀ c ∈ registers o, s c = t c) : cpu.address t o = cpu.address s o := by
  unfold registers at h
  unfold Cpu.address
  split
  · rw [h _ (List.mem_singleton.mpr rfl)]
  · rw [h _ (List.mem_cons_self ..), h _ (List.mem_cons_of_mem _ (List.mem_singleton.mpr rfl))]
  all_goals rfl

theorem put_local {v : BitVec 64} (h : ∀ c ∈ registers o, s c = t c) :
    cpu.put t o v = cpu.put s o v := by
  have hstores : cpu.stores t o v = cpu.stores s o v := by
    unfold Cpu.stores
    rw [address_local h]
  cases o with
  | Reg r => rfl
  | SegReg x => rfl
  | _ => exact hstores

theorem loads_local {o : Operand} (h : ∀ c ∈ cpu.loads s o, s c = t c) :
    cpu.loads t o = cpu.loads s o ∧ cpu.loaded t o = cpu.loaded s o := by
  unfold Cpu.loads Cpu.loaded at *
  rw [address_local fun c hc => h c (List.mem_append_left _ hc)]
  refine ⟨rfl, ?_⟩
  cases ha : cpu.address s o with
  | none => rfl
  | some a =>
    rw [ha] at h
    exact load_local fun c hc => h c (List.mem_append_right _ hc)

theorem value_local (h : ∀ c ∈ cpu.cells s o, s c = t c) :
    cpu.cells t o = cpu.cells s o ∧ cpu.value t o = cpu.value s o := by
  cases o with
  | Reg r => exact ⟨rfl, (h _ (List.mem_singleton.mpr rfl)).symm⟩
  | SegReg x => exact ⟨rfl, (h _ (List.mem_singleton.mpr rfl)).symm⟩
  | Imm64 imm => exact ⟨rfl, rfl⟩
  | _ => exact @loads_local cpu s t _ h

theorem cond_local {cond : Cond} {f g : Flag → Bool} (h : ∀ x ∈ cond_flags cond, f x = g x) :
    cond_holds g cond = cond_holds f cond := by
  cases cond <;> simp_all [cond_flags, cond_holds]

/-- A register and an operand. -/
theorem pair_local {d : RegId} (h : ∀ c ∈ Cell.reg d :: cpu.cells s o, s c = t c) :
    t (.reg d) = s (.reg d) ∧ cpu.cells t o = cpu.cells s o ∧ cpu.value t o = cpu.value s o :=
  ⟨(h _ (.head _)).symm, value_local fun c hc => h c (.tail _ hc)⟩

/-- Two operands. -/
theorem values_local {a b : Operand} (h : ∀ c ∈ cpu.cells s a ++ cpu.cells s b, s c = t c) :
    (cpu.cells t a = cpu.cells s a ∧ cpu.value t a = cpu.value s a) ∧
      cpu.cells t b = cpu.cells s b ∧ cpu.value t b = cpu.value s b :=
  ⟨value_local fun c hc => h c (List.mem_append_left _ hc),
    value_local fun c hc => h c (List.mem_append_right _ hc)⟩

theorem assigned_local (e : Entry) (h : ∀ c ∈ cpu.reads e s, s c = t c) :
    cpu.reads e t = cpu.reads e s ∧ cpu.assigned e t = cpu.assigned e s := by
  unfold Cpu.reads at h ⊢
  unfold Cpu.assigned
  split at h
  · obtain ⟨hcells, hvalue⟩ := value_local fun c hc => h c (List.mem_append_right _ hc)
    rw [hcells, hvalue, put_local fun c hc => h c (List.mem_append_left _ hc)]
    exact ⟨rfl, rfl⟩
  · obtain ⟨hreg, hcells, hvalue⟩ := pair_local h
    rw [hreg, hcells, hvalue]
    exact ⟨rfl, rfl⟩
  · obtain ⟨hreg, hcells, hvalue⟩ := pair_local h
    rw [hreg, hcells, hvalue]
    exact ⟨rfl, rfl⟩
  · obtain ⟨⟨hcells, hvalue⟩, hcells', hvalue'⟩ := values_local h
    rw [hcells, hvalue, hcells', hvalue']
    exact ⟨rfl, rfl⟩
  · obtain ⟨⟨hcells, hvalue⟩, hcells', hvalue'⟩ := values_local h
    rw [hcells, hvalue, hcells', hvalue']
    exact ⟨rfl, rfl⟩
  · obtain ⟨hreg, hcells, hvalue⟩ := pair_local h
    rw [hreg, hcells, hvalue]
    exact ⟨rfl, rfl⟩
  · obtain ⟨hcells, hvalue⟩ := value_local h
    rw [hcells, hvalue]
    exact ⟨rfl, rfl⟩
  · obtain ⟨hreg, hcells, hvalue⟩ := pair_local h
    rw [hreg, hcells, hvalue]
    exact ⟨rfl, rfl⟩
  · obtain ⟨hreg, hcells, hvalue⟩ := pair_local h
    rw [hreg, hcells, hvalue]
    exact ⟨rfl, rfl⟩
  · have hreg := h _ (.head _)
    have hload := load_local fun c hc => h c (.tail _ hc)
    rw [← hreg]
    dsimp only
    rw [hload]
    exact ⟨rfl, rfl⟩
  · rename_i cond hm
    have hflags : ∀ x ∈ cond_flags cond, (s (.flag x) != 0) = (t (.flag x) != 0) := by
      intro x hx
      rw [h _ (List.mem_map_of_mem hx)]
    rw [cond_local hflags]
    exact ⟨rfl, rfl⟩
  · exact ⟨rfl, rfl⟩

end

/-- The machine of these instructions. -/
def Cpu.machine (cpu : Cpu) : Machine Entry Cell (BitVec 64) :=
  .ofAssignments cpu.reads cpu.assigned fun e _ _ h => assigned_local e h

end paideia_as_ir.opt.peephole
