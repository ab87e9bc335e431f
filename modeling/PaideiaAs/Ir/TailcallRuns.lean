-- What the tail-call pass keeps of the calling discipline: the runs of a function
-- before and after the pass, the shapes that return as before, and one that does not.
import PaideiaAs.Ir.Tailcall
import PaideiaAs.Lib.ByteMemory

namespace paideia_as_ir.opt.tailcall

open paideia_as_runtime paideia_as_ir.opt.schedule Windows ByteMemory
open IrNodeId (four_ne one_ne two_ne)

/-! ## The machine -/

/-- Registers, memory, and whatever else instructions work on. -/
structure State (ρ : Type) where
  regs : RegId → BitVec 64
  mem : Memory
  rest : ρ

/-- Where a call or a jump out of the function goes. -/
inductive Target where
  | symbol (name : String) (addend : Int32)
  | address (a : Address)

/-- A function that has returned: the address it returned to, and the state there. -/
structure Exit (ρ : Type) where
  return_address : Address
  state : State ρ

/-- What is left open: the address after a call, what callees come back with, the
flags, and the other instructions. -/
structure World (ρ : Type) where
  after_call : IrNodeId → Address
  callee : Target → State ρ → State ρ
  flags : Instruction → State ρ → ρ
  other : Entry → State ρ → Effect IrNodeId Target (State ρ) (Exit ρ)

variable {ρ : Type}

namespace State

def set (s : State ρ) (r : RegId) (v : BitVec 64) : State ρ :=
  { s with regs := fun r' => if r' = r then v else s.regs r' }

def rsp (s : State ρ) : Address := s.regs abi.RSP

/-- A quad goes on the stack. -/
def push (s : State ρ) (v : BitVec 64) : State ρ :=
  { s.set abi.RSP (s.rsp - 8) with mem := store s.mem (s.rsp - 8) v }

/-- A quad comes off the stack into a register; `pop rsp` leaves what was read. -/
def pop (s : State ρ) (r : RegId) : State ρ :=
  (s.set abi.RSP (s.rsp + 8)).set r (load s.mem s.rsp)

end State

/-- `rsp` by an instruction that sets flags. -/
def World.move_rsp (w : World ρ) (i : Instruction) (v : BitVec 64) (s : State ρ) : State ρ :=
  { s.set abi.RSP v with rest := w.flags i s }

/-- The target that a call or a jump names. -/
def target (operands : List Operand) (s : State ρ) : Option Target :=
  match operands with
  | .SymbolRef name addend :: _ => some (.symbol name addend)
  | [.Reg r] => some (.address (s.regs r))
  | _ => none

/-- A call comes back behind itself; a jump to a target leaves the function, and the
target returns in its place. -/
def World.act (w : World ρ) (e : Entry) (s : State ρ) : Effect IrNodeId Target (State ρ) (Exit ρ) :=
  match e.instr.mnemonic, e.instr.operands with
  | .Push, [.Reg r] => .next [] (s.push (s.regs r))
  | .Pop, [.Reg r] => .next [] (s.pop r)
  | .Sub, [.Reg r, .Imm64 imm] =>
    if r = abi.RSP then .next [] (w.move_rsp e.instr (s.rsp - imm.toBitVec) s) else w.other e s
  | .Add, [.Reg r, .Imm64 imm] =>
    if r = abi.RSP then .next [] (w.move_rsp e.instr (s.rsp + imm.toBitVec) s) else w.other e s
  | .Call, operands =>
    match target operands s with
    | some t => .next [t] (w.callee t (s.push (w.after_call e.id)))
    | none => w.other e s
  | .Jmp, operands =>
    match target operands s with
    | some t => .exit [t] ⟨load s.mem s.rsp, w.callee t s⟩
    | none => w.other e s
  | .Ret, _ => .exit [] ⟨load s.mem s.rsp, s.set abi.RSP (s.rsp + 8)⟩
  | _, _ => w.other e s

def World.machine (w : World ρ) : Machine Entry IrNodeId Target (State ρ) (Exit ρ) where
  label := (·.id)
  act := w.act

/-- A callee returns to the address on top of the stack, with `rsp` just above it; it
keeps the saved registers and the memory of its callers. -/
structure World.Disciplined (w : World ρ) (saved : List RegId) (callers : State ρ → Set Address) :
    Prop where
  rsp : ∀ t s, (w.callee t s).rsp = s.rsp + 8
  regs : ∀ t s, ∀ r ∈ saved, (w.callee t s).regs r = s.regs r
  mem : ∀ t s, ∀ a ∈ callers s, (w.callee t s).mem a = s.mem a
  not_rsp : abi.RSP ∉ saved

/-- The same return address, `rsp` and saved registers. -/
structure SameReturn (saved : List RegId) (e e' : Exit ρ) : Prop where
  return_address : e'.return_address = e.return_address
  rsp : e'.state.rsp = e.state.rsp
  regs : ∀ r ∈ saved, e'.state.regs r = e.state.regs r

/-! ## Single instructions -/

theorem State.set_same (s : State ρ) (r : RegId) (v : BitVec 64) : (s.set r v).regs r = v :=
  if_pos rfl

variable {s : State ρ} {r : RegId} {v : BitVec 64} {w : World ρ} {i : Instruction} {e : Entry}

theorem State.set_other {r' : RegId} (h : r' ≠ r) : (s.set r v).regs r' = s.regs r' :=
  if_neg h

theorem State.set_rsp (s : State ρ) (v : BitVec 64) : (s.set abi.RSP v).rsp = v := s.set_same _ v

theorem State.push_rsp (s : State ρ) (v : BitVec 64) : (s.push v).rsp = s.rsp - 8 :=
  s.set_same abi.RSP (s.rsp - 8)

theorem State.push_other (h : r ≠ abi.RSP) : (s.push v).regs r = s.regs r :=
  if_neg h

theorem World.move_rsp_rsp (w : World ρ) (i : Instruction) (v : BitVec 64) (s : State ρ) :
    (w.move_rsp i v s).rsp = v :=
  s.set_same abi.RSP v

theorem World.move_rsp_mem (w : World ρ) (i : Instruction) (v : BitVec 64) (s : State ρ) :
    (w.move_rsp i v s).mem = s.mem := rfl

theorem World.move_rsp_other (h : r ≠ abi.RSP) : (w.move_rsp i v s).regs r = s.regs r :=
  State.set_other h

theorem of_call_some {α : Type} {extract : Instruction → Option α} {a : α}
    (h : of_call extract i = some a) : i.mnemonic = .Call ∧ extract i = some a := by
  unfold of_call at h
  split at h
  · rename_i hm
    exact ⟨hm, h⟩
  · cases h

theorem act_call {t : Target}
    (hm : e.instr.mnemonic = .Call) (ht : target e.instr.operands s = some t) :
    w.act e s = .next [t] (w.callee t (s.push (w.after_call e.id))) := by
  unfold World.act
  rw [hm]
  dsimp only
  rw [ht]

theorem act_jump {t : Target}
    (hm : e.instr.mnemonic = .Jmp) (ht : target e.instr.operands s = some t) :
    w.act e s = .exit [t] ⟨load s.mem s.rsp, w.callee t s⟩ := by
  unfold World.act
  rw [hm]
  dsimp only
  rw [ht]

theorem act_ret (h : is_ret e = true) :
    w.act e s = .exit [] ⟨load s.mem s.rsp, s.set abi.RSP (s.rsp + 8)⟩ := by
  unfold is_ret at h
  split at h
  · rename_i hm
    unfold World.act
    rw [hm]
  · cases h

theorem act_push (h : push_reg_operand e.instr = some r) : w.act e s = .next [] (s.push (s.regs r))
    := by
  unfold push_reg_operand at h
  split at h
  · rename_i hm ho
    cases h
    unfold World.act
    rw [hm, ho]
  · cases h

theorem act_pop (h : pop_reg_operand e.instr = some r) : w.act e s = .next [] (s.pop r) := by
  unfold pop_reg_operand at h
  split at h
  · rename_i hm ho
    cases h
    unfold World.act
    rw [hm, ho]
  · cases h

theorem act_sub_rsp {imm : Int64} (h : sub_rsp_imm_operand e.instr = some imm) :
    w.act e s = .next [] (w.move_rsp e.instr (s.rsp - imm.toBitVec) s) := by
  unfold sub_rsp_imm_operand at h
  split at h
  · rename_i hm ho
    split at h
    · rename_i hr
      cases h
      unfold World.act
      rw [hm, ho]
      exact if_pos hr
    · cases h
  · cases h

theorem act_add_rsp {imm : Int64} (h : add_rsp_imm_operand e.instr = some imm) :
    w.act e s = .next [] (w.move_rsp e.instr (s.rsp + imm.toBitVec) s) := by
  unfold add_rsp_imm_operand at h
  split at h
  · rename_i hm ho
    split at h
    · rename_i hr
      cases h
      unfold World.act
      rw [hm, ho]
      exact if_pos hr
    · cases h
  · cases h

theorem target_of_symbol {name : String} (h : call_target_symbol i = some name)
    (s : State ρ) : ∃ addend, i.operands.head? = some (.SymbolRef name addend) ∧
      target i.operands s = some (.symbol name addend) := by
  unfold call_target_symbol at h
  split at h
  · rename_i ho
    cases h
    rw [ho]
    exact ⟨_, rfl, rfl⟩
  · cases h

theorem target_of_reg (h : call_target_reg i = some r)
    (s : State ρ) : target i.operands s = some (.address (s.regs r)) := by
  unfold call_target_reg at h
  split at h
  · rename_i ho
    cases h
    rw [ho]
    rfl
  · cases h

/-! ## What stays on the stack -/

/-- The quad is apart from the return address that a call pushes, and belongs to the
callers of the callee. -/
structure Leaves (callers : State ρ → Set Address) (s : State ρ) (return_address : BitVec 64)
    (a : Address) : Prop where
  apart : Apart a (s.rsp - 8) 8
  callers : ∀ k < 8, a + BitVec.ofNat 64 k ∈ callers (s.push return_address)

section

variable {w : World ρ} {saved : List RegId} {callers : State ρ → Set Address}
  {s : State ρ} {r : RegId} {call ret : Entry}

section

variable (hw : w.Disciplined saved callers)

include hw

/-- The quad is what it was after the call. -/
theorem Leaves.load_eq {a : Address} (h : Leaves callers s v a) (t : Target) :
    load (w.callee t (s.push v)).mem a = load s.mem a := by
  have hkeep : load (w.callee t (s.push v)).mem a = load (s.push v).mem a :=
    load_congr fun k hk => hw.mem t _ _ (h.callers k hk)
  rw [hkeep]
  exact load_store_apart h.apart

/-- After a call the stack stands as before it. -/
theorem callee_push_rsp (t : Target) (s : State ρ) (v : BitVec 64) :
    (w.callee t (s.push v)).rsp = s.rsp := by
  rw [hw.rsp, State.push_rsp, BitVec.sub_add_cancel]

theorem callee_push_regs (t : Target) (s : State ρ) (v : BitVec 64)
    (hr : r ∈ saved) : (w.callee t (s.push v)).regs r = s.regs r := by
  rw [hw.regs t _ r hr]
  exact State.push_other fun h => hw.not_rsp (h ▸ hr)

/-! ## The shapes that return as before -/

/-- A return to the address on top of the stack of `s`, against the return of a callee
that was entered from there. -/
theorem sameReturn_of_callee (t : Target) {s' : State ρ}
    {return_address : Address} (haddr : load s.mem s.rsp = return_address)
    (hrsp : s'.rsp = s.rsp + 8) (hregs : ∀ r ∈ saved, s.regs r = s'.regs r) :
    SameReturn saved ⟨return_address, s'⟩ ⟨load s.mem s.rsp, w.callee t s⟩ := by
  refine ⟨haddr, (hw.rsp t s).trans hrsp.symm, ?_⟩
  intro r hr
  exact (hw.regs t s r hr).trans (hregs r hr)

/-- `call; ret`. -/
theorem call_ret_replaces {t : Target}
    (hcall : call.instr.mnemonic = .Call) (ht : target call.instr.operands s = some t)
    (hret : is_ret ret = true) (hleaves : Leaves callers s (w.after_call call.id) s.rsp) :
    Replaces w.machine (SameReturn saved) [call, ret] [with_mnemonic call .Jmp] s := by
  intro P rest events e hends P' rest'
  obtain ⟨events1, hends1, hobs1⟩ := hends.of_next (act_call hcall ht)
  obtain ⟨rfl, hobs2⟩ := hends1.of_exit (act_ret hret)
  refine ⟨_, _, .exit (act_jump (e := with_mnemonic call .Jmp) rfl ht), ?_, ?_⟩
  · refine sameReturn_of_callee hw t ?_ ?_ ?_
    · rw [callee_push_rsp hw, hleaves.load_eq hw]
    · rw [State.set_rsp, callee_push_rsp hw]
    · intro r hr
      have hne : r ≠ abi.RSP := fun h => hw.not_rsp (h ▸ hr)
      rw [State.set_other hne, callee_push_regs hw t s _ hr]
  · rw [observed_visit, observed_only, hobs1, hobs2]
    rfl

/-- `sub rsp, imm; call r; add rsp, imm; ret`, where `rsp` is no target that moves. -/
theorem align_pad_replaces {sub add : Entry}
    {imm : Int64} (hsub : sub_rsp_imm_operand sub.instr = some imm)
    (hcall : of_call call_target_reg call.instr = some r)
    (hadd : add_rsp_imm_operand add.instr = some imm) (hret : is_ret ret = true)
    (hreg : r = abi.RSP → imm = 0)
    (hleaves : Leaves callers (w.move_rsp sub.instr (s.rsp - imm.toBitVec) s) (w.after_call call.id)
      s.rsp) :
    Replaces w.machine (SameReturn saved) [sub, call, add, ret] [with_mnemonic call .Jmp, add] s := by
  obtain ⟨hm, hr⟩ := of_call_some hcall
  intro P rest events e hends P' rest'
  obtain ⟨events1, hends1, hobs1⟩ := hends.of_next (act_sub_rsp hsub)
  have htarget : (w.move_rsp sub.instr (s.rsp - imm.toBitVec) s).regs r = s.regs r := by
    by_cases hrsp : r = abi.RSP
    · rw [hreg hrsp, hrsp]
      have hzero : s.rsp - (0 : Int64).toBitVec = s.regs abi.RSP := BitVec.sub_zero _
      exact (s.set_same abi.RSP _).trans hzero
    · exact World.move_rsp_other hrsp
  obtain ⟨events2, hends2, hobs2⟩ := hends1.of_next (act_call hm (target_of_reg hr _))
  obtain ⟨events3, hends3, hobs3⟩ := hends2.of_next (act_add_rsp hadd)
  obtain ⟨rfl, hobs4⟩ := hends3.of_exit (act_ret hret)
  refine ⟨_, _, .exit (act_jump (e := with_mnemonic call .Jmp) rfl (target_of_reg hr s)), ?_, ?_⟩
  · have hback : s.rsp - imm.toBitVec + imm.toBitVec = s.rsp := BitVec.sub_add_cancel ..
    refine sameReturn_of_callee hw _ ?_ ?_ ?_
    · rw [w.move_rsp_rsp, w.move_rsp_mem, callee_push_rsp hw, w.move_rsp_rsp, hback, hleaves.load_eq hw,
        w.move_rsp_mem]
    · rw [State.set_rsp, w.move_rsp_rsp, callee_push_rsp hw, w.move_rsp_rsp, hback]
    · intro r' hr'
      have hne : r' ≠ abi.RSP := fun h => hw.not_rsp (h ▸ hr')
      rw [State.set_other hne, World.move_rsp_other hne, callee_push_regs hw _ _ _ hr',
        World.move_rsp_other hne]
  · rw [observed_visit, observed_only, hobs1, hobs2, hobs3, hobs4, htarget]
    rfl

/-- `call sym; pop r; ret`. -/
theorem trailing_pop_replaces {pop : Entry}
    {sym : String} (hcall : of_call call_target_symbol call.instr = some sym)
    (hpop : pop_reg_operand pop.instr = some r) (hret : is_ret ret = true)
    (haddend : call.instr.operands.head? = some (.SymbolRef sym 0))
    (hsaved : Leaves callers s (w.after_call call.id) s.rsp)
    (hleaves : Leaves callers s (w.after_call call.id) (s.pop r).rsp) :
    Replaces w.machine (SameReturn saved) [call, pop, ret]
      [with_instr call .Pop [.Reg r], with_instr pop .Jmp [.SymbolRef sym 0]] s := by
  obtain ⟨hm, hsym⟩ := of_call_some hcall
  intro P rest events e hends P' rest'
  obtain ⟨addend, hhead, ht⟩ := target_of_symbol hsym s
  obtain rfl : addend = 0 := by
    rw [haddend] at hhead
    cases hhead
    rfl
  obtain ⟨events1, hends1, hobs1⟩ := hends.of_next (act_call hm ht)
  obtain ⟨events2, hends2, hobs2⟩ := hends1.of_next (act_pop hpop)
  obtain ⟨rfl, hobs3⟩ := hends2.of_exit (act_ret hret)
  have hfirst : w.act (with_instr call .Pop [.Reg r]) s = .next [] (s.pop r) := act_pop rfl
  have hlast : w.act (with_instr pop .Jmp [.SymbolRef sym 0]) (s.pop r)
      = .exit [.symbol sym 0] ⟨load s.mem (s.pop r).rsp, w.callee (.symbol sym 0) (s.pop r)⟩ :=
    act_jump rfl rfl
  refine ⟨_, _, .next hfirst (.exit hlast), ?_, ?_⟩
  · -- the pop reads the same quad before and after the call
    have hrsp := callee_push_rsp hw (.symbol sym 0) s (w.after_call call.id)
    have hval := hsaved.load_eq hw (.symbol sym 0)
    have hpopped : ((w.callee (.symbol sym 0) (s.push (w.after_call call.id))).pop r).rsp
        = (s.pop r).rsp := by
      unfold State.pop
      rw [hrsp, hval]
      by_cases hr : abi.RSP = r
      · subst hr
        exact (State.set_same ..).trans (State.set_same ..).symm
      · have hother := fun (s' : State ρ) v v' => (State.set_other (s := s'.set abi.RSP v) (v := v') hr).trans
          (State.set_same s' abi.RSP v)
        exact (hother _ _ _).trans (hother _ _ _).symm
    refine sameReturn_of_callee (s := s.pop r) hw (.symbol sym 0) ?_ ?_ ?_
    · rw [hpopped]
      exact (hleaves.load_eq hw _).symm
    · rw [State.set_rsp, hpopped]
    · intro r' hr'
      have hne : r' ≠ abi.RSP := fun h => hw.not_rsp (h ▸ hr')
      rw [State.set_other hne]
      unfold State.pop
      rw [hrsp, hval]
      by_cases hrr : r' = r
      · subst hrr
        exact (State.set_same ..).trans (State.set_same ..).symm
      · rw [State.set_other hrr, State.set_other hrr, State.set_other hne, State.set_other hne,
          callee_push_regs hw _ _ _ hr']
  · rw [observed_visit, observed_seen, observed_visit, observed_only, hobs1, hobs2, hobs3]
    rfl

omit hw in
theorem State.pop_rsp (h : r ≠ abi.RSP) : (s.pop r).rsp = s.rsp + 8 :=
  (State.set_other h.symm).trans (State.set_rsp ..)

/-- `push r; call sym; pop r; ret`: the push that became a pop leaves `rsp` one quad
too high. -/
theorem bracketed_off {push pop : Entry} {sym : String}
    (hpush : push_reg_operand push.instr = some r)
    (hcall : of_call call_target_symbol call.instr = some sym)
    (hpop : pop_reg_operand pop.instr = some r) (hret : is_ret ret = true) (hr : r ≠ abi.RSP)
    {P rest P' rest' : List Entry} {events events' : List (Event Entry IrNodeId Target (State ρ))}
    {e e' : Exit ρ} (h : w.machine.Ends P ([push, call, pop, ret] ++ rest) s events e)
    (h' : w.machine.Ends P' ([with_mnemonic push .Pop, with_mnemonic call .Jmp] ++ rest') s events' e') :
    e'.state.rsp = e.state.rsp + 8 := by
  obtain ⟨hm, hsym⟩ := of_call_some hcall
  have hregs : push.instr.operands = [.Reg r] := by
    unfold push_reg_operand at hpush
    split at hpush
    · rename_i ho
      cases hpush
      exact ho
    · cases hpush
  have hpopped : pop_reg_operand (with_mnemonic push .Pop).instr = some r := by
    unfold pop_reg_operand with_mnemonic
    dsimp only
    rw [hregs]
  have ht := fun s' : State ρ => (target_of_symbol hsym s').choose_spec.2
  obtain ⟨events1, hends1, -⟩ := h.of_next (act_push hpush)
  obtain ⟨events2, hends2, -⟩ := hends1.of_next (act_call hm (ht _))
  obtain ⟨events3, hends3, -⟩ := hends2.of_next (act_pop hpop)
  obtain ⟨rfl, -⟩ := hends3.of_exit (act_ret hret)
  obtain ⟨events1', hends1', -⟩ := h'.of_next (act_pop hpopped)
  obtain ⟨rfl, -⟩ := hends1'.of_exit (act_jump (e := with_mnemonic call .Jmp) rfl (ht _))
  have hback : (s.pop r).rsp = s.rsp + 8 := State.pop_rsp hr
  dsimp only
  rw [hw.rsp, hback, State.set_rsp, State.pop_rsp hr, callee_push_rsp hw, State.push_rsp,
    BitVec.sub_add_cancel]

end

/-! ## Whole runs -/

/-- What the code needs where it comes to a window. The bracketed and the pop-restore
shapes have nothing to offer: their `rsp` is off by a quad. -/
def Sound (w : World ρ) (callers : State ρ → Set Address) (win : Window) (s : State ρ) : Prop :=
  match win.shape, win.old with
  | .Indirect, call :: _ | .SelfRecursion, call :: _ =>
    Leaves callers s (w.after_call call.id) s.rsp
  | .AlignPad, sub :: call :: _ =>
    ∀ imm r, sub_rsp_imm_operand sub.instr = some imm → of_call call_target_reg call.instr = some r →
      (r = abi.RSP → imm = 0) ∧
      Leaves callers (w.move_rsp sub.instr (s.rsp - imm.toBitVec) s) (w.after_call call.id) s.rsp
  | .TrailingPop, call :: pop :: _ =>
    ∀ sym r, of_call call_target_symbol call.instr = some sym → pop_reg_operand pop.instr = some r →
      call.instr.operands.head? = some (.SymbolRef sym 0) ∧
      Leaves callers s (w.after_call call.id) s.rsp ∧
      Leaves callers s (w.after_call call.id) (s.pop r).rsp
  | _, _ => False

theorem replaces_of_sound (hw : w.Disciplined saved callers) {win : Window} (hm : Matched win)
    (hs : Sound w callers win s) :
    Replaces w.machine (SameReturn saved) win.old win.new s := by
  cases hm with
  | align_pad hsub hcall hadd hret =>
    obtain ⟨hreg, hleaves⟩ := hs _ _ hsub hcall
    exact align_pad_replaces hw hsub hcall hadd hret hreg hleaves
  | bracketed => exact hs.elim
  | trailing_pop hcall hpop hret =>
    obtain ⟨haddend, hsaved, hleaves⟩ := hs _ _ hcall hpop
    exact trailing_pop_replaces hw hcall hpop hret haddend hsaved hleaves
  | pop_restore => exact hs.elim
  | indirect hcall hret =>
    obtain ⟨hm, hr⟩ := of_call_some hcall
    exact call_ret_replaces hw hm (target_of_reg hr s) hret hs
  | self_recursion hcall hret =>
    obtain ⟨hm, hsym⟩ := of_call_some hcall
    obtain ⟨_, _, ht⟩ := target_of_symbol hsym s
    exact call_ret_replaces hw hm ht hret hs

theorem window_of_blocks {arena : Arena} {old new : List Entry}
    (h : .window old new ∈ blocks arena) :
    ∃ win, .window win ∈ pieces arena ∧ win.old = old ∧ win.new = new := by
  obtain ⟨piece, hpiece, heq⟩ := List.mem_map.mp h
  cases piece with
  | kept => cases heq
  | window win =>
    cases heq
    exact ⟨win, hpiece, rfl, rfl⟩

theorem blocks_wellFormed (w : World ρ) (arena : Arena) : WellFormed w.machine (blocks arena) where
  nodup := by
    rw [before_blocks]
    exact by_id_nodup _
  nonempty := by
    intro b hb
    cases b with
    | keep i => exact List.cons_ne_nil i []
    | window old new =>
      obtain ⟨win, hwin, rfl, -⟩ := window_of_blocks hb
      exact (scan_matched _ _ hwin).nonempty
  labels := by
    intro b hb i hi
    cases b with
    | keep => exact List.mem_map_of_mem hi
    | window old new =>
      obtain ⟨win, hwin, rfl, rfl⟩ := window_of_blocks hb
      have hplace := (scan_matched _ _ hwin).places.subset (List.mem_map_of_mem hi)
      obtain ⟨e, he, heq⟩ := List.mem_map.mp hplace
      exact List.mem_map.mpr ⟨e, he, congrArg Prod.fst heq⟩

/-- What a run must keep to: it lands outside of windows or at a window's first entry,
where that stays, and it comes to windows only where they are sound. -/
def KeepsTo (w : World ρ) (callers : State ρ → Set Address) (arena : Arena) :
    Event Entry IrNodeId Target (State ρ) → Prop
  | .visit e s => ∀ win, .window win ∈ pieces arena → win.old.head? = some e → Sound w callers win s
  | .land id => Landing w.machine (blocks arena) id
  | .seen _ => True

theorem KeepsTo.meets (hw : w.Disciplined saved callers) {arena : Arena}
    {event : Event Entry IrNodeId Target (State ρ)} (h : KeepsTo w callers arena event) :
    Meets w.machine (SameReturn saved) (blocks arena) event := by
  cases event with
  | visit e s =>
    intro old new hmem hhead
    obtain ⟨win, hwin, rfl, rfl⟩ := window_of_blocks hmem
    exact replaces_of_sound hw (scan_matched _ _ hwin) (h win hwin hhead)
  | land id => exact h
  | seen t => trivial

theorem SameReturn.refl (saved : List RegId) (e : Exit ρ) : SameReturn saved e e :=
  ⟨rfl, rfl, fun _ _ => rfl⟩

/-- The calling discipline is kept: for every run of the code there is one of the code
that the pass leaves, which enters the same callees and returns as it does. -/
def KeepsDiscipline (w : World ρ) (saved : List RegId) (arena : Arena) : Prop :=
  ∀ entry s events e, w.machine.Executes (program arena) entry s events e →
    ∃ events' e', w.machine.Executes (program (apply arena)) entry s events' e' ∧
      SameReturn saved e e' ∧ observed events' = observed events

/-- A run that keeps to the sound windows, where each rewritten window is emitted in
one piece. -/
theorem keeps_discipline (hw : w.Disciplined saved callers) {arena : Arena}
    (hplace : InPlace arena) {entry : IrNodeId} {s : State ρ}
    {events : List (Event Entry IrNodeId Target (State ρ))} {e : Exit ρ}
    (h : w.machine.Executes (program arena) entry s events e)
    (hkeeps : ∀ event ∈ events, KeepsTo w callers arena event) :
    ∃ events' e', w.machine.Executes (program (apply arena)) entry s events' e' ∧
      SameReturn saved e e' ∧ observed events' = observed events := by
  have hperm := emitted_blocks_perm arena
  rw [program_eq hplace] at h
  rw [program_apply hplace]
  exact executes_after (SameReturn.refl saved) ((blocks_wellFormed w arena).perm hperm.symm) h
    fun event hevent => ((hkeeps event hevent).meets hw).perm hperm.symm

end

/-! ## Two functions -/

/-- Callees that return at once. -/
def plain : World Unit where
  after_call id := BitVec.ofNat 64 id.get.toNat
  callee _ s := s.set abi.RSP (s.rsp + 8)
  flags _ _ := ()
  other _ _ := .stuck

def RBX : RegId := ⟨3⟩

theorem plain_disciplined : plain.Disciplined [RBX] fun _ => Set.univ where
  rsp t s := s.set_rsp _
  regs t s r hr := by
    rw [List.mem_singleton] at hr
    subst hr
    exact State.set_other (by decide)
  mem t s a _ := rfl
  not_rsp := by decide

/-- All registers hold 64. -/
def start : State Unit := ⟨fun _ => 64, fun _ => 0, ()⟩

/-- A table without handlers and capabilities. -/
def bare (instructions : InstructionSideTable) : Arena where
  kind _ := none
  handler_side_table := []
  instr_owner _ := none
  fn_declared_caps _ := none
  call_site_required_caps _ := none
  instructions := instructions

/-- `call r11`, `ret`. -/
def callReg : InstructionSideTable where
  entries := [⟨⟨1, one_ne⟩, 1, plain64 .Call [.Reg ⟨11⟩]⟩, ⟨⟨2, two_ne⟩, 2, plain64 .Ret []⟩]
  nodup := by decide

/-- `push rbx`, `call f`, `pop rbx`, `ret`. -/
def pushCallPop : InstructionSideTable where
  entries := [⟨⟨1, one_ne⟩, 1, plain64 .Push [.Reg RBX]⟩,
    ⟨⟨2, two_ne⟩, 2, plain64 .Call [.SymbolRef "f" 0]⟩,
    ⟨⟨3, IrNodeId.three_ne⟩, 3, plain64 .Pop [.Reg RBX]⟩, ⟨⟨4, four_ne⟩, 4, plain64 .Ret []⟩]
  nodup := by decide

theorem callReg_by_id : by_id callReg = callReg.entries := List.mergeSort_of_pairwise (by decide)

theorem pushCallPop_by_id : by_id pushCallPop = pushCallPop.entries :=
  List.mergeSort_of_pairwise (by decide)

theorem callReg_program : program (bare callReg) = callReg.entries :=
  List.mergeSort_of_pairwise (by decide)

theorem pushCallPop_program : program (bare pushCallPop) = pushCallPop.entries :=
  List.mergeSort_of_pairwise (by decide)

theorem callReg_pieces : pieces (bare callReg) = [.window ⟨.Indirect, callReg.entries,
    [⟨⟨1, by decide⟩, 1, plain64 .Jmp [.Reg ⟨11⟩]⟩]⟩] := by
  unfold pieces
  rw [show (bare callReg).instructions = callReg from rfl, callReg_by_id]
  rfl

theorem pushCallPop_pieces : pieces (bare pushCallPop) = [.window ⟨.Bracketed, pushCallPop.entries,
    [⟨⟨1, by decide⟩, 1, plain64 .Pop [.Reg RBX]⟩,
      ⟨⟨2, by decide⟩, 2, plain64 .Jmp [.SymbolRef "f" 0]⟩]⟩] := by
  unfold pieces
  rw [show (bare pushCallPop).instructions = pushCallPop from rfl, pushCallPop_by_id]
  rfl

/-- Where `call r11` comes back. -/
def returned : State Unit := plain.callee (.address 64) (start.push 1)

theorem callReg_executes : plain.machine.Executes (program (bare callReg)) ⟨1, by decide⟩ start
    [.land ⟨1, by decide⟩, .visit ⟨⟨1, by decide⟩, 1, plain64 .Call [.Reg ⟨11⟩]⟩ start,
      .seen (.address 64), .visit ⟨⟨2, by decide⟩, 2, plain64 .Ret []⟩ returned]
    ⟨load returned.mem returned.rsp, returned.set abi.RSP (returned.rsp + 8)⟩ := by
  have hcall : plain.act ⟨⟨1, by decide⟩, 1, plain64 .Call [.Reg ⟨11⟩]⟩ start
      = .next [.address 64] returned := act_call rfl (target_of_reg rfl start)
  have hret : plain.act ⟨⟨2, by decide⟩, 2, plain64 .Ret []⟩ returned = .exit []
      ⟨load returned.mem returned.rsp, returned.set abi.RSP (returned.rsp + 8)⟩ := act_ret rfl
  rw [callReg_program]
  exact ⟨_, _, rfl, .next hcall (.exit hret), rfl⟩

theorem callReg_keeps_discipline : ∃ events' e',
    plain.machine.Executes (program (apply (bare callReg))) ⟨1, by decide⟩ start events' e' ∧
      SameReturn [RBX] ⟨load returned.mem returned.rsp, returned.set abi.RSP (returned.rsp + 8)⟩ e' ∧
      observed events' = [.address 64] := by
  refine keeps_discipline plain_disciplined ?_ callReg_executes ?_
  · intro win hwin
    rw [callReg_pieces, List.mem_singleton] at hwin
    cases hwin
    rw [callReg_program]
  intro event hevent
  simp only [List.mem_cons, List.not_mem_nil, or_false] at hevent
  rcases hevent with rfl | rfl | rfl | rfl
  · unfold KeepsTo blocks
    rw [callReg_pieces]
    exact ⟨_, List.mem_singleton.mpr rfl, rfl, rfl⟩
  · intro win hwin _
    rw [callReg_pieces, List.mem_singleton] at hwin
    cases hwin
    refine ⟨?_, fun _ _ => trivial⟩
    unfold Apart
    decide
  · trivial
  · intro win hwin hhead
    rw [callReg_pieces, List.mem_singleton] at hwin
    cases hwin
    cases hhead

theorem pushCallPop_after : program (apply (bare pushCallPop)) =
    [⟨⟨1, by decide⟩, 1, plain64 .Pop [.Reg RBX]⟩,
      ⟨⟨2, by decide⟩, 2, plain64 .Jmp [.SymbolRef "f" 0]⟩] := by
  have hplace : InPlace (bare pushCallPop) := by
    intro win hwin
    rw [pushCallPop_pieces, List.mem_singleton] at hwin
    cases hwin
    rw [pushCallPop_program]
  rw [program_apply hplace]
  unfold emitted_blocks blocks
  rw [pushCallPop_pieces, List.map_singleton, List.mergeSort_singleton]
  rfl

theorem pushCallPop_ends (s : State Unit) : ∃ events e,
    plain.machine.Ends pushCallPop.entries pushCallPop.entries s events e := by
  have hpush : ∀ s, plain.act ⟨⟨1, by decide⟩, 1, plain64 .Push [.Reg RBX]⟩ s
      = .next [] (s.push (s.regs RBX)) := fun s => act_push rfl
  have hcall : ∀ s, plain.act ⟨⟨2, by decide⟩, 2, plain64 .Call [.SymbolRef "f" 0]⟩ s
      = .next [.symbol "f" 0] (plain.callee (.symbol "f" 0) (s.push 2)) := fun s => act_call rfl rfl
  have hpop : ∀ s, plain.act ⟨⟨3, by decide⟩, 3, plain64 .Pop [.Reg RBX]⟩ s
      = .next [] (s.pop RBX) := fun s => act_pop rfl
  have hret : ∀ s, plain.act ⟨⟨4, by decide⟩, 4, plain64 .Ret []⟩ s
      = .exit [] ⟨load s.mem s.rsp, s.set abi.RSP (s.rsp + 8)⟩ := fun s => act_ret rfl
  exact ⟨_, _, .next (hpush _) (.next (hcall _) (.next (hpop _) (.exit (hret _))))⟩

/-- `f` is entered with `rsp` a quad too high, and returns with it. -/
theorem pushCallPop_breaks_discipline :
    plain.Disciplined [RBX] (fun _ => Set.univ) ∧ ¬ KeepsDiscipline plain [RBX] (bare pushCallPop) := by
  refine ⟨plain_disciplined, ?_⟩
  intro h
  obtain ⟨events, e, hends⟩ := pushCallPop_ends start
  obtain ⟨events', e', ⟨code, rest, htarget, hends', -⟩, hsame, -⟩ := h ⟨1, by decide⟩ start _ e
    ⟨_, events, by rw [pushCallPop_program]; rfl, by rw [pushCallPop_program]; exact hends, rfl⟩
  rw [pushCallPop_after] at htarget
  cases htarget
  rw [← List.append_nil pushCallPop.entries] at hends
  rw [← List.append_nil [_, _]] at hends'
  have hoff : e'.state.rsp = e.state.rsp + 8 :=
    bracketed_off plain_disciplined rfl rfl rfl rfl (by decide) hends hends'
  rw [hsame.rsp] at hoff
  exact absurd (BitVec.self_eq_add_right.mp hoff) (by decide)

end paideia_as_ir.opt.tailcall
