-- The emitter under `EmitWalker`: every instruction of a walk goes through
-- `emit_inst`, under a node id that its caller gives.
import PaideiaAs.Elaborator.UnsafeWalker

namespace paideia_as_elaborator.emit_walker

open paideia_as_runtime

/-! ## Node ids -/

/-- Id arithmetic is `u32` arithmetic, and wraps in a release build. -/
def u32 (n : Nat) : Nat := n % 2 ^ 32

theorem u32_of_lt {n : Nat} (h : n < 2 ^ 32) : u32 n = n := Nat.mod_eq_of_lt h

/-- The first id that no node of the arena is meant to have. -/
def SYNTHETIC_BASE : Nat := 2000000000

def U32_MAX : Nat := 2 ^ 32 - 1

/-- The part of `EmitPassState` that emission reads and writes. An entry of
`instructions` is an instruction with its emission order, and the newest entry of
an id counts, as it does in the other tables. -/
structure EmitPassState where
  instructions : List (Nat × Instruction × Nat)
  mode : InstrMode
  current_function : Nat
  pending_first_instr_lambda : Option Nat
  lambda_first_instr : List (Nat × Nat)
  emitted_lambdas : List Nat
  label_to_instr : List (String × Nat)
  next_emission_order : Nat
  next_synthetic_id : Nat
  instr_to_lambda : List (Nat × Nat)
  pending_frame_prologue : List Nat
  emitted_frame_prologue : List Nat

def EmitPassState.default (mode : InstrMode) : EmitPassState :=
  ⟨[], mode, 0, none, [], [], [], 1, SYNTHETIC_BASE, [], [], []⟩

/-- The ids that `emit_inst` was given so far, the newest first. -/
def EmitPassState.ids (s : EmitPassState) : List Nat := s.instructions.map (·.1)

/-! ## Emission -/

def alloc_synthetic_id (s : EmitPassState) : Nat × EmitPassState :=
  (s.next_synthetic_id, { s with next_synthetic_id := min (s.next_synthetic_id + 1) U32_MAX })

/-- The part of `emit_inst` after the frame prologue. -/
def record (s : EmitPassState) (node_id : Nat) (inst : Instruction) : EmitPassState :=
  let s := { s with
    instructions := (node_id, inst, s.next_emission_order) :: s.instructions
    next_emission_order := s.next_emission_order + 1
    instr_to_lambda := (node_id, s.current_function) :: s.instr_to_lambda }
  match s.pending_first_instr_lambda with
  | some lid => { s with
      pending_first_instr_lambda := none
      lambda_first_instr := (lid, node_id) :: s.lambda_first_instr
      emitted_lambdas := lid :: s.emitted_lambdas }
  | none => s

def RSP : RegId := ⟨4⟩
def RBP : RegId := ⟨5⟩

/-- `push rbp; mov rbp, rsp`, each on a synthetic id, at the start of the function
that waits for them. -/
def emit_frame_prologue (s : EmitPassState) : EmitPassState :=
  let fn_id := s.current_function
  let s := { s with
    pending_frame_prologue := s.pending_frame_prologue.filter (· ≠ fn_id)
    emitted_frame_prologue := fn_id :: s.emitted_frame_prologue }
  let (push_id, s) := alloc_synthetic_id s
  let s := record s push_id ⟨.Push, [.Reg RBP], none, s.mode⟩
  let (mov_id, s) := alloc_synthetic_id s
  let s := record s mov_id ⟨.Mov, [.Reg RBP, .Reg RSP], none, s.mode⟩
  { s with lambda_first_instr := (fn_id, push_id) :: s.lambda_first_instr }

/-- The prologue was taken from the pending ones first, so that its own two
instructions bring no prologue with them. -/
def emit_inst (s : EmitPassState) (node_id : Nat) (inst : Instruction) : EmitPassState :=
  if s.current_function ≠ 0 ∧ s.pending_frame_prologue.contains s.current_function then
    record (emit_frame_prologue s) node_id inst
  else record s node_id inst

def insert_label (s : EmitPassState) (name : String) (instr_id : Nat) : EmitPassState :=
  { s with label_to_instr := (name, instr_id) :: s.label_to_instr }

/-! ## Commands -/

/-- What a walk asks of the emitter, one call after the other. `Fresh` emits on
`alloc_synthetic_id`, and `Enter` is the start of a function with or without a
frame. `register_label` notes a byte offset, which is not kept here. -/
inductive Command where
  | Emit (node_id : Nat) (inst : Instruction)
  | Fresh (inst : Instruction)
  | InsertLabel (name : String) (instr_id : Nat)
  | RegisterLabel (name : String)
  | Enter (lambda_id : Nat) (framed first : Bool)

def exec (s : EmitPassState) : Command → EmitPassState
  | .Emit node_id inst => emit_inst s node_id inst
  | .Fresh inst =>
    let (id, s) := alloc_synthetic_id s
    emit_inst s id inst
  | .InsertLabel name instr_id => insert_label s name instr_id
  | .RegisterLabel _ => s
  | .Enter lambda_id framed first => { s with
      current_function := lambda_id
      pending_first_instr_lambda :=
        if first then some lambda_id else s.pending_first_instr_lambda
      pending_frame_prologue :=
        if framed then lambda_id :: s.pending_frame_prologue else s.pending_frame_prologue }

def execAll (s : EmitPassState) (cmds : List Command) : EmitPassState := cmds.foldl exec s

/-- The id that a command brings with it. -/
def Command.ownId : Command → Option Nat
  | .Emit node_id _ => some node_id
  | _ => none

def ownIds (cmds : List Command) : List Nat := cmds.filterMap Command.ownId

@[simp] theorem ownIds_nil : ownIds [] = [] := rfl

@[simp] theorem ownIds_append (xs ys : List Command) :
    ownIds (xs ++ ys) = ownIds xs ++ ownIds ys := List.filterMap_append ..

@[simp] theorem ownIds_emit (id : Nat) (inst : Instruction) (cmds : List Command) :
    ownIds (.Emit id inst :: cmds) = id :: ownIds cmds := rfl

@[simp] theorem ownIds_fresh (inst : Instruction) (cmds : List Command) :
    ownIds (.Fresh inst :: cmds) = ownIds cmds := rfl

@[simp] theorem ownIds_insertLabel (name : String) (id : Nat) (cmds : List Command) :
    ownIds (.InsertLabel name id :: cmds) = ownIds cmds := rfl

@[simp] theorem ownIds_registerLabel (name : String) (cmds : List Command) :
    ownIds (.RegisterLabel name :: cmds) = ownIds cmds := rfl

@[simp] theorem ownIds_enter (id : Nat) (framed first : Bool) (cmds : List Command) :
    ownIds (.Enter id framed first :: cmds) = ownIds cmds := rfl

/-- The synthetic ids that a command may draw: one for itself, two for a frame. -/
def Command.draws : Command → Nat
  | .Fresh _ => 1
  | .Enter _ true _ => 2
  | _ => 0

end paideia_as_elaborator.emit_walker
