-- Tail-call elimination (`opt/tailcall.rs`): what blocks a rewriting, the six shapes
-- that the pass looks for, and the table that it leaves.
import PaideiaAs.Ir.Abi
import PaideiaAs.Ir.Schedule
import PaideiaAs.Lib.Windows

namespace paideia_as_ir.opt.tailcall

open paideia_as_runtime paideia_as_ir.opt.schedule Windows

/-- What the pass reads of the arena: the nodes' kinds, the handlers with the bodies
of their operations, the owners of instructions, the capabilities that functions
declare and call sites need, and the instructions. -/
structure Arena where
  kind : IrNodeId → Option IrKind
  handler_side_table : List (IrNodeId × List IrNodeId)
  instr_owner : IrNodeId → Option String
  fn_declared_caps : String → Option (List String)
  call_site_required_caps : IrNodeId → Option (List String)
  instructions : InstructionSideTable

/-! ## Blockers -/

inductive TcoBlocker where
  | CapabilityBoundary
  | EffectHandlerInstalling
  | DifferentCallConvention
  | FrameRequiresEpilogue
  deriving DecidableEq

/-- The id lies in `lo..hi`. -/
def in_range (lo hi : Nat) (id : IrNodeId) : Bool := decide (lo ≤ id.get.toNat ∧ id.get.toNat < hi)

/-- A handler node in `lo..hi`. -/
def handler_node (arena : Arena) (lo hi : Nat) : Bool :=
  (List.range' lo (hi - lo)).any fun i =>
    match (IrNodeId.new (UInt32.ofNat i)).bind arena.kind with
    | some .Handle | some .HandlerValue => true
    | _ => false

/-- An entry of the handler table in `lo..hi`, by its node or by a body. -/
def handler_entry (arena : Arena) (lo hi : Nat) : Bool :=
  arena.handler_side_table.any fun handler =>
    in_range lo hi handler.1 || handler.2.any (in_range lo hi)

def tco_arena_blocker (arena : Arena) (call_id ret_id : IrNodeId) (owner_name : String) :
    Option TcoBlocker :=
  let lo := min (call_id.get.toNat + 1) (2 ^ 32 - 1)
  let hi := ret_id.get.toNat
  if handler_node arena lo hi then some .EffectHandlerInstalling
  else if handler_entry arena lo hi then some .EffectHandlerInstalling
  else
    match arena.fn_declared_caps owner_name, arena.call_site_required_caps call_id with
    | some declared, some required => if declared ≠ required then some .CapabilityBoundary else none
    | _, _ => none

def tco_arena_blocker_with_earlier (arena : Arena) (earlier_span_start : Option IrNodeId)
    (call_id ret_id : IrNodeId) (owner_name : String) : Option TcoBlocker :=
  match tco_arena_blocker arena call_id ret_id owner_name with
  | some reason => some reason
  | none =>
    match earlier_span_start with
    | none => none
    | some start =>
      let lo := start.get.toNat
      let hi := call_id.get.toNat
      if lo ≥ hi then none
      else if handler_node arena lo hi then some .EffectHandlerInstalling
      else if handler_entry arena lo hi then some .EffectHandlerInstalling
      else none

/-! ## Operands -/

def call_target_symbol (inst : Instruction) : Option String :=
  match inst.operands with
  | .SymbolRef name _ :: _ => some name
  | _ => none

def call_target_reg (inst : Instruction) : Option RegId :=
  match inst.operands with
  | [.Reg r] => some r
  | _ => none

def pop_reg_operand (inst : Instruction) : Option RegId :=
  match inst.mnemonic, inst.operands with
  | .Pop, [.Reg r] => some r
  | _, _ => none

def push_reg_operand (inst : Instruction) : Option RegId :=
  match inst.mnemonic, inst.operands with
  | .Push, [.Reg r] => some r
  | _, _ => none

def sub_rsp_imm_operand (inst : Instruction) : Option Int64 :=
  match inst.mnemonic, inst.operands with
  | .Sub, [.Reg r, .Imm64 i] => if r = abi.RSP then some i else none
  | _, _ => none

def add_rsp_imm_operand (inst : Instruction) : Option Int64 :=
  match inst.mnemonic, inst.operands with
  | .Add, [.Reg r, .Imm64 i] => if r = abi.RSP then some i else none
  | _, _ => none

/-- What an extractor gives for a call. -/
def of_call {α : Type} (extract : Instruction → Option α) (inst : Instruction) : Option α :=
  match inst.mnemonic with
  | .Call => extract inst
  | _ => none

def is_ret (e : Entry) : Bool :=
  match e.instr.mnemonic with
  | .Ret => true
  | _ => false

/-! ## Windows -/

inductive Shape where
  | AlignPad
  | Bracketed
  | TrailingPop
  | PopRestore
  | Indirect
  | SelfRecursion
  deriving DecidableEq

/-- A window of the table that is rewritten: its entries, and what stays of them. -/
structure Window where
  shape : Shape
  old : List Entry
  new : List Entry

/-- A shape at a place: it is not there, it is there and something blocks it, or it is
rewritten. -/
inductive Attempt where
  | unmatched
  | refused
  | rewritten (w : Window)

/-- The entry with another mnemonic. -/
def with_mnemonic (e : Entry) (mnemonic : Mnemonic) : Entry :=
  { e with instr := { e.instr with mnemonic } }

def with_instr (e : Entry) (mnemonic : Mnemonic) (operands : List Operand) : Entry :=
  { e with instr := { e.instr with mnemonic, operands } }

def unless_blocked (blocker : Option TcoBlocker) (w : Window) : Attempt :=
  match blocker with
  | some _ => .refused
  | none => .rewritten w

/-- The check that the shapes without an earlier push share. -/
def attempt (arena : Arena) (call ret : Entry) (w : Window) : Attempt :=
  unless_blocked (tco_arena_blocker arena call.id ret.id ((arena.instr_owner call.id).getD "")) w

/-- `sub rsp, imm; call r; add rsp, imm; ret`: the `sub` and the `ret` go, and the call
becomes a jump. -/
def align_pad (arena : Arena) : List Entry → Attempt
  | sub :: call :: add :: ret :: _ =>
    match sub_rsp_imm_operand sub.instr, of_call call_target_reg call.instr,
        add_rsp_imm_operand add.instr with
    | some imm_sub, some _, some imm_add =>
      if is_ret ret ∧ imm_sub = imm_add then
        attempt arena call ret ⟨.AlignPad, [sub, call, add, ret], [with_mnemonic call .Jmp, add]⟩
      else .unmatched
    | _, _, _ => .unmatched
  | _ => .unmatched

/-- `push r; call sym; pop r; ret`: the push becomes a pop and the call a jump, and the
rest goes. -/
def bracketed (arena : Arena) : List Entry → Attempt
  | push :: call :: pop :: ret :: _ =>
    match push_reg_operand push.instr, of_call call_target_symbol call.instr,
        pop_reg_operand pop.instr with
    | some pushed, some _, some popped =>
      if is_ret ret ∧ pushed = popped then
        attempt arena call ret
          ⟨.Bracketed, [push, call, pop, ret], [with_mnemonic push .Pop, with_mnemonic call .Jmp]⟩
      else .unmatched
    | _, _, _ => .unmatched
  | _ => .unmatched

inductive PushSearch where
  | push (id : IrNodeId)
  | branch
  | missing

def is_branch (inst : Instruction) : Bool :=
  match inst.mnemonic with
  | .Jmp | .Jcc _ | .Call | .FarJmp => true
  | _ => false

/-- The push of the register among the earlier entries, the last first; an entry that
the pass has removed is passed over. -/
def find_push (arena : Arena) (owner : String) (popped : RegId) :
    List (IrNodeId × Option Instruction) → PushSearch
  | [] => .missing
  | (id, inst) :: earlier =>
    if arena.instr_owner id = some owner then
      match inst with
      | none => find_push arena owner popped earlier
      | some inst =>
        if is_branch inst then .branch
        else
          match push_reg_operand inst with
          | some pushed => if pushed = popped then .push id else .missing
          | none =>
            if (pop_reg_operand inst).isSome then .missing
            else find_push arena owner popped earlier
    else .missing

/-- `call sym; pop r; ret` behind a push of `r`: the call becomes the pop and the pop
the jump, and the `ret` goes. -/
def trailing_pop (arena : Arena) (earlier : List (IrNodeId × Option Instruction)) :
    List Entry → Attempt
  | call :: pop :: ret :: _ =>
    match of_call call_target_symbol call.instr, pop_reg_operand pop.instr with
    | some target_sym, some popped =>
      let owner := (arena.instr_owner call.id).getD ""
      if is_ret ret ∧ owner ≠ "" then
        match find_push arena owner popped earlier with
        | .missing => .unmatched
        | .branch => .refused
        | .push push_id =>
          unless_blocked
            (tco_arena_blocker_with_earlier arena (some push_id) call.id ret.id owner)
            ⟨.TrailingPop, [call, pop, ret],
              [with_instr call .Pop [.Reg popped], with_instr pop .Jmp [.SymbolRef target_sym 0]]⟩
      else .unmatched
    | _, _ => .unmatched
  | _ => .unmatched

/-- `pop r; call t; pop r; ret`: the call becomes a jump, and what follows goes. -/
def pop_restore (arena : Arena) : List Entry → Attempt
  | pop_a :: call :: pop_b :: ret :: _ =>
    match pop_reg_operand pop_a.instr, of_call call_target_reg call.instr,
        pop_reg_operand pop_b.instr with
    | some a, some _, some b =>
      if is_ret ret ∧ a = b then
        attempt arena call ret
          ⟨.PopRestore, [pop_a, call, pop_b, ret], [pop_a, with_mnemonic call .Jmp]⟩
      else .unmatched
    | _, _, _ => .unmatched
  | _ => .unmatched

/-- `call; ret`, of the function itself or through a register: the call becomes a jump,
and the `ret` goes. -/
def call_ret (arena : Arena) : List Entry → Attempt
  | call :: ret :: _ =>
    if is_ret ret then
      match of_call call_target_symbol call.instr with
      | some target_name =>
        if arena.instr_owner call.id = some target_name then
          attempt arena call ret ⟨.SelfRecursion, [call, ret], [with_mnemonic call .Jmp]⟩
        else .unmatched
      | none =>
        match of_call call_target_reg call.instr with
        | some _ => attempt arena call ret ⟨.Indirect, [call, ret], [with_mnemonic call .Jmp]⟩
        | none => .unmatched
    else .unmatched
  | _ => .unmatched

/-- The first attempt that finds its shape. -/
def first_match : List Attempt → Attempt
  | [] => .unmatched
  | .unmatched :: rest => first_match rest
  | found :: _ => found

def window_at (arena : Arena) (earlier : List (IrNodeId × Option Instruction))
    (rest : List Entry) : Attempt :=
  first_match [align_pad arena rest, bracketed arena rest, trailing_pop arena earlier rest,
    pop_restore arena rest, call_ret arena rest]

/-! ## The pass -/

/-- The window's ids, the last first, with what the table holds of them now. -/
def passed (w : Window) : List (IrNodeId × Option Instruction) :=
  w.old.reverse.map fun e => (e.id, (w.new.find? (·.id = e.id)).map (·.instr))

/-- An entry that stays, or a window. -/
inductive Piece where
  | kept (e : Entry)
  | window (w : Window)

def Piece.block : Piece → Block Entry
  | .kept e => .keep e
  | .window w => .window w.old w.new

/-- The loop over the ids: `earlier` are those before the cursor, and `skip` counts
what is left of the last window. -/
def scan (arena : Arena) : List (IrNodeId × Option Instruction) → Nat → List Entry → List Piece
  | _, _, [] => []
  | earlier, skip + 1, _ :: rest => scan arena earlier skip rest
  | earlier, 0, e :: rest =>
    match window_at arena earlier (e :: rest) with
    | .rewritten w => .window w :: scan arena (passed w ++ earlier) (w.old.length - 1) rest
    | _ => .kept e :: scan arena ((e.id, some e.instr) :: earlier) 0 rest

/-- The entries in the order of their ids. -/
def by_id (side_table : InstructionSideTable) : List Entry :=
  side_table.entries.mergeSort fun a b => decide (a.id.get.toNat ≤ b.id.get.toNat)

def pieces (arena : Arena) : List Piece := scan arena [] 0 (by_id arena.instructions)

def blocks (arena : Arena) : List (Block Entry) := (pieces arena).map Piece.block

/-! ## What a window can be -/

/-- The six shapes with what their entries are. -/
inductive Matched : Window → Prop
  | align_pad {sub call add ret : Entry} {imm : Int64} {r : RegId} :
    sub_rsp_imm_operand sub.instr = some imm → of_call call_target_reg call.instr = some r →
    add_rsp_imm_operand add.instr = some imm → is_ret ret = true →
    Matched ⟨.AlignPad, [sub, call, add, ret], [with_mnemonic call .Jmp, add]⟩
  | bracketed {push call pop ret : Entry} {r : RegId} {sym : String} :
    push_reg_operand push.instr = some r → of_call call_target_symbol call.instr = some sym →
    pop_reg_operand pop.instr = some r → is_ret ret = true →
    Matched ⟨.Bracketed, [push, call, pop, ret], [with_mnemonic push .Pop, with_mnemonic call .Jmp]⟩
  | trailing_pop {call pop ret : Entry} {r : RegId} {sym : String} :
    of_call call_target_symbol call.instr = some sym → pop_reg_operand pop.instr = some r →
    is_ret ret = true →
    Matched ⟨.TrailingPop, [call, pop, ret],
      [with_instr call .Pop [.Reg r], with_instr pop .Jmp [.SymbolRef sym 0]]⟩
  | pop_restore {pop_a call pop_b ret : Entry} {r t : RegId} :
    pop_reg_operand pop_a.instr = some r → of_call call_target_reg call.instr = some t →
    pop_reg_operand pop_b.instr = some r → is_ret ret = true →
    Matched ⟨.PopRestore, [pop_a, call, pop_b, ret], [pop_a, with_mnemonic call .Jmp]⟩
  | indirect {call ret : Entry} {r : RegId} :
    of_call call_target_reg call.instr = some r → is_ret ret = true →
    Matched ⟨.Indirect, [call, ret], [with_mnemonic call .Jmp]⟩
  | self_recursion {call ret : Entry} {sym : String} :
    of_call call_target_symbol call.instr = some sym → is_ret ret = true →
    Matched ⟨.SelfRecursion, [call, ret], [with_mnemonic call .Jmp]⟩

/-- A window that is rewritten stands at the front of what is left. -/
def Found (rest : List Entry) (w : Window) : Prop := Matched w ∧ ∃ tail, rest = w.old ++ tail

variable {w : Window} {arena : Arena} {rest : List Entry}

theorem unless_blocked_rewritten {blocker : Option TcoBlocker} {w' : Window}
    (h : unless_blocked blocker w = .rewritten w') : w' = w := by
  unfold unless_blocked at h
  split at h
  · cases h
  · cases h
    rfl

theorem align_pad_found (h : align_pad arena rest = .rewritten w) : Found rest w := by
  unfold align_pad at h
  split at h
  · split at h
    · rename_i hsub hcall hadd
      split at h
      · rename_i hcond
        cases unless_blocked_rewritten h
        exact ⟨.align_pad hsub hcall (hcond.2 ▸ hadd) hcond.1, _, rfl⟩
      · cases h
    · cases h
  · cases h

theorem bracketed_found (h : bracketed arena rest = .rewritten w) : Found rest w := by
  unfold bracketed at h
  split at h
  · split at h
    · rename_i hpush hcall hpop
      split at h
      · rename_i hcond
        cases unless_blocked_rewritten h
        exact ⟨.bracketed hpush hcall (hcond.2 ▸ hpop) hcond.1, _, rfl⟩
      · cases h
    · cases h
  · cases h

theorem trailing_pop_found {earlier : List (IrNodeId × Option Instruction)}
    (h : trailing_pop arena earlier rest = .rewritten w) :
    Found rest w := by
  unfold trailing_pop at h
  split at h
  · split at h
    · rename_i hcall hpop
      dsimp only at h
      split at h
      · rename_i hcond
        split at h
        · cases h
        · cases h
        · cases unless_blocked_rewritten h
          exact ⟨.trailing_pop hcall hpop hcond.1, _, rfl⟩
      · cases h
    · cases h
  · cases h

theorem pop_restore_found (h : pop_restore arena rest = .rewritten w) : Found rest w := by
  unfold pop_restore at h
  split at h
  · split at h
    · rename_i hpop_a hcall hpop_b
      split at h
      · rename_i hcond
        cases unless_blocked_rewritten h
        exact ⟨.pop_restore hpop_a hcall (hcond.2 ▸ hpop_b) hcond.1, _, rfl⟩
      · cases h
    · cases h
  · cases h

theorem call_ret_found (h : call_ret arena rest = .rewritten w) : Found rest w := by
  unfold call_ret at h
  split at h
  · split at h
    · rename_i hret
      split at h
      · rename_i hcall
        split at h
        · cases unless_blocked_rewritten h
          exact ⟨.self_recursion hcall hret, _, rfl⟩
        · cases h
      · split at h
        · rename_i hcall
          cases unless_blocked_rewritten h
          exact ⟨.indirect hcall hret, _, rfl⟩
        · cases h
    · cases h
  · cases h

theorem first_match_mem {attempts : List Attempt} (h : first_match attempts = .rewritten w) :
    .rewritten w ∈ attempts := by
  fun_induction first_match attempts with
  | case1 => cases h
  | case2 rest ih => exact .tail _ (ih h)
  | case3 found rest hne =>
    rw [h]
    exact List.mem_cons_self ..

theorem window_at_found {earlier : List (IrNodeId × Option Instruction)}
    (h : window_at arena earlier rest = .rewritten w) :
    Found rest w := by
  have hmem := first_match_mem h
  simp only [List.mem_cons, List.not_mem_nil, or_false] at hmem
  rcases hmem with h | h | h | h | h
  · exact align_pad_found h.symm
  · exact bracketed_found h.symm
  · exact trailing_pop_found h.symm
  · exact pop_restore_found h.symm
  · exact call_ret_found h.symm

theorem Matched.nonempty (h : Matched w) : w.old ≠ [] := by
  intro hnil
  cases h <;> cases hnil

/-- What an entry's place in the order of the encoder depends on. -/
def place (e : Entry) : IrNodeId × Nat := (e.id, e.emission_order)

/-- A window keeps some of its entries at their places. -/
theorem Matched.places (h : Matched w) : (w.new.map place).Sublist (w.old.map place) := by
  cases h with
  | align_pad => exact .cons _ (.cons_cons _ (.cons_cons _ (.cons _ .slnil)))
  | bracketed => exact .cons_cons _ (.cons_cons _ (.cons _ (.cons _ .slnil)))
  | trailing_pop => exact .cons_cons _ (.cons_cons _ (.cons _ .slnil))
  | pop_restore => exact .cons_cons _ (.cons_cons _ (.cons _ (.cons _ .slnil)))
  | indirect => exact .cons_cons _ (.cons _ .slnil)
  | self_recursion => exact .cons_cons _ (.cons _ .slnil)

/-! ## The blocks of a table -/

theorem before_scan :
    ∀ earlier skip, before ((scan arena earlier skip rest).map Piece.block) = rest.drop skip := by
  induction rest with
  | nil =>
    intro earlier skip
    rw [List.drop_nil]
    cases skip <;> rfl
  | cons e rest ih =>
    intro earlier skip
    cases skip with
    | succ skip => exact ih earlier skip
    | zero =>
      unfold scan
      split
      · rename_i w hw
        obtain ⟨hmatched, tail, htail⟩ := window_at_found hw
        rw [List.map_cons, before_cons, ih]
        dsimp only [Piece.block, Block.old]
        cases hold : w.old with
        | nil => exact absurd hold hmatched.nonempty
        | cons e' old =>
          rw [hold] at htail
          obtain ⟨rfl, rfl⟩ := List.cons.inj htail
          simp
      · rw [List.map_cons, before_cons, ih]
        rfl

/-- A window of the pass has one of the six shapes. -/
theorem scan_matched : ∀ earlier skip, .window w ∈ scan arena earlier skip rest → Matched w := by
  induction rest with
  | nil =>
    intro earlier skip hw
    cases skip <;> cases hw
  | cons e rest ih =>
    intro earlier skip hw
    cases skip with
    | succ skip => exact ih earlier skip hw
    | zero =>
      unfold scan at hw
      split at hw
      · rename_i w' hfound
        rcases List.mem_cons.mp hw with heq | hw
        · cases heq
          exact (window_at_found hfound).1
        · exact ih _ _ hw
      · rcases List.mem_cons.mp hw with heq | hw
        · cases heq
        · exact ih _ _ hw

/-- Entries stay at their places in all blocks where they do in each. -/
theorem places_of_blocks {bs : List (Block Entry)}
    (h : ∀ b ∈ bs, (b.new.map place).Sublist (b.old.map place)) :
    ((after bs).map place).Sublist ((before bs).map place) := by
  induction bs with
  | nil => exact .slnil
  | cons b bs ih =>
    rw [after_cons, before_cons, List.map_append, List.map_append]
    exact (h b (.head _)).append (ih fun c hc => h c (.tail _ hc))

theorem block_places {b : Block Entry} (hb : b ∈ blocks arena) :
    (b.new.map place).Sublist (b.old.map place) := by
  obtain ⟨piece, hpiece, rfl⟩ := List.mem_map.mp hb
  cases piece with
  | kept e => exact List.Sublist.refl _
  | window w => exact (scan_matched [] 0 hpiece).places

theorem before_blocks (arena : Arena) : before (blocks arena) = by_id arena.instructions := by
  unfold blocks pieces
  rw [before_scan, List.drop_zero]

variable (side_table : InstructionSideTable)

theorem by_id_perm : (by_id side_table).Perm side_table.entries :=
  List.mergeSort_perm ..

theorem by_id_nodup : ((by_id side_table).map (·.id)).Nodup :=
  ((by_id_perm side_table).map _).nodup_iff.mpr side_table.nodup

theorem by_id_sorted : (by_id side_table).Pairwise fun a b => a.id.val.toNat < b.id.val.toNat := by
  have hle : (by_id side_table).Pairwise fun a b =>
      decide (a.id.get.toNat ≤ b.id.get.toNat) = true := by
    apply List.pairwise_mergeSort
    · intro a b c hab hbc
      exact decide_eq_true (Nat.le_trans (of_decide_eq_true hab) (of_decide_eq_true hbc))
    · intro a b
      simpa using Nat.le_total a.id.get.toNat b.id.get.toNat
  have hne := List.pairwise_map.mp (by_id_nodup side_table)
  apply (hle.and hne).imp
  rintro a b ⟨hle, hne⟩
  exact Nat.lt_of_le_of_ne (of_decide_eq_true hle) fun heq => hne (IrNodeId.toNat_inj heq)

theorem after_blocks_nodup (arena : Arena) : ((after (blocks arena)).map (·.id)).Nodup := by
  have hids : ∀ l : List Entry, l.map (·.id) = (l.map place).map Prod.fst := by
    intro l
    rw [List.map_map]
    rfl
  have hbefore := by_id_nodup arena.instructions
  rw [← before_blocks, hids] at hbefore
  rw [hids]
  exact ((places_of_blocks fun b => block_places).map Prod.fst).nodup hbefore

/-- The arena that the pass leaves. -/
def apply (arena : Arena) : Arena :=
  if arena.instructions.entries.length < 2 then arena
  else { arena with instructions := ⟨after (blocks arena), after_blocks_nodup arena⟩ }

/-! ## The code before and after the pass -/

/-- The instructions as the encoder emits them. -/
def program (arena : Arena) : List Entry := emitted arena.instructions

/-- The windows that are rewritten stand in the emitted code in one piece. -/
def InPlace (arena : Arena) : Prop :=
  ∀ win, .window win ∈ pieces arena → win.old <:+: program arena

/-- Where a block starts in the order of the encoder. -/
def start_key (b : Block Entry) : Lex (Nat × Nat) := (b.old.head?.map Entry.key).getD (toLex (0, 0))

/-- The blocks in the order of the encoder. -/
def emitted_blocks (arena : Arena) : List (Block Entry) :=
  (blocks arena).mergeSort fun a b => decide (start_key a ≤ start_key b)

theorem emitted_blocks_perm (arena : Arena) : (emitted_blocks arena).Perm (blocks arena) :=
  List.mergeSort_perm ..

theorem program_perm (arena : Arena) : (before (emitted_blocks arena)).Perm (program arena) := by
  refine ((emitted_blocks_perm arena).flatMap_right _).trans ?_
  exact (before_blocks arena ▸ by_id_perm arena.instructions).trans (emitted_perm _).symm

theorem old_placed (h : InPlace arena) {b : Block Entry} (hb : b ∈ blocks arena) :
    b.old <:+: program arena := by
  have hmem : ∀ e ∈ b.old, e ∈ program arena := by
    intro e he
    refine (program_perm arena).mem_iff.mp (List.mem_flatMap.mpr ⟨b, ?_, he⟩)
    exact (emitted_blocks_perm arena).mem_iff.mpr hb
  obtain ⟨piece, hpiece, rfl⟩ := List.mem_map.mp hb
  cases piece with
  | window win => exact h win hpiece
  | kept e =>
    obtain ⟨pre, post, heq⟩ := List.append_of_mem (hmem e (List.mem_singleton_self e))
    exact ⟨pre, post, by rw [heq]; exact List.append_assoc ..⟩

/-- Two pieces of code that share nothing stand as their first entries do. -/
theorem infix_before {P A B : List Entry} (hsorted : P.Pairwise fun a b => a.key < b.key)
    (hA : A <:+: P) (hB : B <:+: P) (hdisjoint : List.Disjoint A B) {a b : Entry}
    (ha : A.head? = some a) (hb : B.head? = some b) (hab : a.key ≤ b.key) :
    ∀ x ∈ A, ∀ y ∈ B, x.key < y.key := by
  intro x hx y hy
  have hfirst : b.key ≤ y.key := by
    have hBsorted := hsorted.sublist hB.sublist
    cases B with
    | nil => cases hy
    | cons c B =>
      cases hb
      rcases List.mem_cons.mp hy with rfl | hy
      · exact le_rfl
      · exact ((List.pairwise_cons.mp hBsorted).1 y hy).le
  have hbP : b ∈ P := hB.subset (List.mem_of_mem_head? hb)
  obtain ⟨pre, post, rfl⟩ := hA
  rw [List.append_assoc, List.pairwise_append, List.pairwise_append] at hsorted
  obtain ⟨-, ⟨-, -, hpost⟩, hpre⟩ := hsorted
  have hbpost : b ∈ post := by
    rcases List.mem_append.mp hbP with hbP | hbP
    · rcases List.mem_append.mp hbP with hbP | hbP
      · have hlt := hpre b hbP a (List.mem_append_left _ (List.mem_of_mem_head? ha))
        exact absurd hab (not_le_of_gt hlt)
      · exact absurd (List.mem_of_mem_head? hb) (hdisjoint hbP)
    · exact hbP
  exact (hpost x hx b hbpost).trans_le hfirst

theorem start_key_eq {b : Block Entry} {e : Entry} (h : b.old.head? = some e) :
    start_key b = e.key := by
  unfold start_key
  rw [h]
  rfl

theorem block_head {b : Block Entry} (hb : b ∈ blocks arena) : ∃ e, b.old.head? = some e := by
  obtain ⟨piece, hpiece, rfl⟩ := List.mem_map.mp hb
  cases piece with
  | kept e => exact ⟨e, rfl⟩
  | window w =>
    obtain ⟨e, old, heq⟩ := List.exists_cons_of_ne_nil (scan_matched [] 0 hpiece).nonempty
    exact ⟨e, congrArg List.head? heq⟩

theorem before_emitted_sorted (h : InPlace arena) :
    (before (emitted_blocks arena)).Pairwise fun a b => a.key < b.key := by
  have hsorted := emitted_sorted arena.instructions
  have hin : ∀ b ∈ emitted_blocks arena, b ∈ blocks arena :=
    fun b hb => (emitted_blocks_perm arena).mem_iff.mp hb
  have hstarts : (emitted_blocks arena).Pairwise fun a b => start_key a ≤ start_key b := by
    refine (List.pairwise_mergeSort ?_ ?_ (blocks arena)).imp of_decide_eq_true
    · intro a b c hab hbc
      exact decide_eq_true ((of_decide_eq_true hab).trans (of_decide_eq_true hbc))
    · intro a b
      simpa using le_total (start_key a) (start_key b)
  have hnodup : (before (emitted_blocks arena)).Nodup :=
    (program_perm arena).nodup_iff.mpr (emitted_ids_nodup arena.instructions).of_map
  refine List.pairwise_flatMap.mpr ⟨fun b hb => ?_, ?_⟩
  · exact hsorted.sublist (old_placed h (hin b hb)).sublist
  · refine (hstarts.and (List.nodup_flatMap.mp hnodup).2).imp_of_mem ?_
    rintro a b ha hb ⟨hle, hdisjoint⟩
    obtain ⟨x, hx⟩ := block_head (hin a ha)
    obtain ⟨y, hy⟩ := block_head (hin b hb)
    rw [start_key_eq hx, start_key_eq hy] at hle
    exact infix_before hsorted (old_placed h (hin a ha)) (old_placed h (hin b hb)) hdisjoint hx hy hle

theorem program_eq (h : InPlace arena) : program arena = before (emitted_blocks arena) := by
  refine List.Perm.eq_of_pairwise ?_ (emitted_sorted _) (before_emitted_sorted h)
    (program_perm arena).symm
  intro a b _ _ hab hba
  exact absurd hab (lt_asymm hba)

theorem after_emitted_sorted (h : InPlace arena) :
    (after (emitted_blocks arena)).Pairwise fun a b => a.key < b.key := by
  have hbefore := before_emitted_sorted h
  have hplaces : ∀ l : List Entry, (l.Pairwise fun a b => a.key < b.key) ↔
      (l.map place).Pairwise fun p q => toLex (p.2, p.1.val.toNat) < toLex (q.2, q.1.val.toNat) := by
    intro l
    rw [List.pairwise_map]
    exact Iff.rfl
  rw [hplaces] at hbefore ⊢
  exact hbefore.sublist
    (places_of_blocks fun b hb => block_places ((emitted_blocks_perm arena).mem_iff.mp hb))

theorem blocks_short (h : arena.instructions.entries.length < 2) :
    after (blocks arena) = before (blocks arena) := by
  have hlen := (by_id_perm arena.instructions).length_eq
  unfold blocks pieces
  match hl : by_id arena.instructions with
  | [] => rfl
  | [e] => rfl
  | a :: b :: rest =>
    rw [hl, List.length_cons, List.length_cons] at hlen
    omega

theorem apply_perm (arena : Arena) :
    (apply arena).instructions.entries.Perm (after (emitted_blocks arena)) := by
  have hafter := ((emitted_blocks_perm arena).flatMap_right Block.new).symm
  unfold apply
  split
  · rename_i hshort
    have hsame := blocks_short hshort
    rw [before_blocks] at hsame
    exact (hsame ▸ (by_id_perm arena.instructions).symm).trans hafter
  · exact hafter

theorem program_apply (h : InPlace arena) :
    program (apply arena) = after (emitted_blocks arena) := by
  refine List.Perm.eq_of_pairwise ?_ (emitted_sorted _) (after_emitted_sorted h)
    ((emitted_perm _).trans (apply_perm arena))
  intro a b _ _ hab hba
  exact absurd hab (lt_asymm hba)

end paideia_as_ir.opt.tailcall
