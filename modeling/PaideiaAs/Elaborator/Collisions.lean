-- No instruction of a walk takes the place of another: when the ids that the
-- emitters compute are all different.
import PaideiaAs.Elaborator.EmitWalk

namespace paideia_as_elaborator.emit_walker

open paideia_as_runtime Rows
open List (lookup_append mem_append mem_filter mem_flatMap mem_map nodup_append suffix_refl)

/-! ## What the emitter did with the ids -/

section

variable (s : EmitPassState) (id : Nat) (inst : Instruction)

@[simp] theorem record_ids : (record s id inst).ids = id :: s.ids := by
  unfold record
  dsimp only
  split <;> rfl

@[simp] theorem record_next : (record s id inst).next_synthetic_id = s.next_synthetic_id := by
  unfold record
  dsimp only
  split <;> rfl

@[simp] theorem record_pending :
    (record s id inst).pending_frame_prologue = s.pending_frame_prologue := by
  unfold record
  dsimp only
  split <;> rfl

end

/-- The ids below the synthetic ones are those of the commands, newest first. The
synthetic ones were counted up from the base, each used once but for those in `out`,
which are drawn and wait for their instruction. -/
structure Ledger (own out : List Nat) (s : EmitPassState) : Prop where
  base : SYNTHETIC_BASE ≤ s.next_synthetic_id
  low : s.ids.filter (· < SYNTHETIC_BASE) = own
  high : (s.ids.filter (fun id => !decide (id < SYNTHETIC_BASE)) ++ out).Perm
    (List.range' SYNTHETIC_BASE (s.next_synthetic_id - SYNTHETIC_BASE))

/-- The synthetic ids that are drawn or promised to a frame. -/
def EmitPassState.claimed (s : EmitPassState) : Nat :=
  s.next_synthetic_id + 2 * s.pending_frame_prologue.length

section

variable {own out : List Nat} {s : EmitPassState} {id : Nat} (inst : Instruction)

theorem ledger_default (mode : InstrMode) : Ledger [] [] (.default mode) :=
  ⟨Nat.le_refl _, rfl, by simp [EmitPassState.default, EmitPassState.ids]⟩

/-- A ledger looks at the ids and the counter only. -/
theorem Ledger.congr {s' : EmitPassState} (h : Ledger own out s) (hids : s'.ids = s.ids)
    (hnext : s'.next_synthetic_id = s.next_synthetic_id) : Ledger own out s' := by
  obtain ⟨h1, h2, h3⟩ := h
  exact ⟨by rw [hnext]; exact h1, by rw [hids]; exact h2, by rw [hids, hnext]; exact h3⟩

theorem Ledger.record_own (h : Ledger own out s) (hid : id < SYNTHETIC_BASE) :
    Ledger (id :: own) out (record s id inst) := by
  refine ⟨by rw [record_next]; exact h.base, ?_, ?_⟩
  · rw [record_ids, List.filter_cons_of_pos (by simpa using hid), h.low]
  · rw [record_ids, List.filter_cons_of_neg (by simpa using hid), record_next]
    exact h.high

/-- An id is drawn, while the counter can still go up. -/
theorem Ledger.alloc (h : Ledger own out s) (hroom : s.next_synthetic_id + 1 ≤ U32_MAX) :
    Ledger own (s.next_synthetic_id :: out) (alloc_synthetic_id s).2 := by
  have hbase := h.base
  have hnext : (alloc_synthetic_id s).2.next_synthetic_id = s.next_synthetic_id + 1 :=
    Nat.min_eq_left hroom
  have hids : (alloc_synthetic_id s).2.ids = s.ids := rfl
  have hcount : s.next_synthetic_id + 1 - SYNTHETIC_BASE =
      s.next_synthetic_id - SYNTHETIC_BASE + 1 := by omega
  refine ⟨by rw [hnext]; omega, by rw [hids]; exact h.low, ?_⟩
  rw [hids, hnext, hcount, List.range'_1_concat, Nat.add_sub_cancel' hbase]
  exact List.perm_middle.trans
    ((h.high.cons s.next_synthetic_id).trans (List.perm_append_singleton _ _).symm)

/-- An id that was drawn is used. -/
theorem Ledger.record_out (h : Ledger own (id :: out) s) : Ledger own out (record s id inst) := by
  have hid : ¬ id < SYNTHETIC_BASE := by
    have hmem := h.high.mem_iff.mp (List.mem_append_right _ (.head _))
    rw [List.mem_range'_1] at hmem
    omega
  refine ⟨by rw [record_next]; exact h.base, ?_, ?_⟩
  · rw [record_ids, List.filter_cons_of_neg (by simpa using hid), h.low]
  · rw [record_ids, List.filter_cons_of_pos (by simpa using hid), record_next]
    exact List.perm_middle.symm.trans h.high

/-- The state in which the two instructions of a frame are emitted. -/
def takeFrame (s : EmitPassState) : EmitPassState := { s with
  pending_frame_prologue := s.pending_frame_prologue.filter (· ≠ s.current_function)
  emitted_frame_prologue := s.current_function :: s.emitted_frame_prologue }

/-- A synthetic instruction without a frame. -/
def recordFresh (s : EmitPassState) (inst : Instruction) : EmitPassState :=
  record (alloc_synthetic_id s).2 (alloc_synthetic_id s).1 inst

theorem Ledger.recordFresh (h : Ledger own out s) (hroom : s.next_synthetic_id + 1 ≤ U32_MAX) :
    Ledger own out (recordFresh s inst) := (h.alloc hroom).record_out inst

theorem recordFresh_next (hroom : s.next_synthetic_id + 1 ≤ U32_MAX) :
    (recordFresh s inst).next_synthetic_id = s.next_synthetic_id + 1 := by
  unfold recordFresh
  rw [record_next]
  exact Nat.min_eq_left hroom

theorem recordFresh_pending :
    (recordFresh s inst).pending_frame_prologue = s.pending_frame_prologue := by
  unfold recordFresh
  rw [record_pending]
  rfl

/-- The frame that is emitted gives up the two ids it was promised. -/
theorem takeFrame_claimed (hpend : s.pending_frame_prologue.contains s.current_function) :
    (takeFrame s).claimed + 2 ≤ s.claimed := by
  have hmem : s.current_function ∈ s.pending_frame_prologue := by simpa using hpend
  have hlt : (s.pending_frame_prologue.filter (· ≠ s.current_function)).length <
      s.pending_frame_prologue.length :=
    List.length_filter_lt_length_iff_exists.mpr ⟨s.current_function, hmem, by simp⟩
  unfold EmitPassState.claimed takeFrame
  dsimp only
  omega

theorem emit_frame_prologue_eq (s : EmitPassState) : ∃ push mov first, emit_frame_prologue s =
    { recordFresh (recordFresh (takeFrame s) push) mov with lambda_first_instr := first } :=
  ⟨_, _, _, rfl⟩

theorem emit_frame_prologue_spec (h : Ledger own out s)
    (hpend : s.pending_frame_prologue.contains s.current_function)
    (hroom : s.claimed ≤ U32_MAX) :
    Ledger own out (emit_frame_prologue s) ∧ (emit_frame_prologue s).claimed ≤ s.claimed := by
  have hclaim := takeFrame_claimed hpend
  have hnext : (takeFrame s).next_synthetic_id ≤ (takeFrame s).claimed := Nat.le_add_right ..
  obtain ⟨push, mov, first, hspec⟩ := emit_frame_prologue_eq s
  have hroom₁ : (takeFrame s).next_synthetic_id + 1 ≤ U32_MAX := by omega
  have hn₁ := recordFresh_next push hroom₁
  have hroom₂ : (recordFresh (takeFrame s) push).next_synthetic_id + 1 ≤ U32_MAX := by omega
  have h₁ : Ledger own out (takeFrame s) := h.congr rfl rfl
  rw [hspec]
  refine ⟨((h₁.recordFresh push hroom₁).recordFresh mov hroom₂).congr rfl rfl, ?_⟩
  unfold EmitPassState.claimed at hclaim ⊢
  dsimp only
  rw [recordFresh_next mov hroom₂, hn₁, recordFresh_pending, recordFresh_pending]
  omega

theorem record_claimed : (record s id inst).claimed = s.claimed := by
  unfold EmitPassState.claimed
  rw [record_next, record_pending]

/-- `emit_inst` uses its id once, and may bring a frame that was promised. -/
theorem emit_inst_spec (id : Nat) (h : Ledger own out s) (hroom : s.claimed ≤ U32_MAX) :
    ∃ t, emit_inst s id inst = record t id inst ∧ Ledger own out t ∧ t.claimed ≤ s.claimed := by
  unfold emit_inst
  split
  · rename_i hpend
    obtain ⟨h₁, hc₁⟩ := emit_frame_prologue_spec h hpend.2 hroom
    exact ⟨_, rfl, h₁, hc₁⟩
  · exact ⟨s, rfl, h, Nat.le_refl _⟩

/-! ## Runs of commands -/

section

variable (h : Ledger own [] s)

include h

theorem exec_spec {c : Command} (hid : ∀ id ∈ c.ownId, id < SYNTHETIC_BASE)
    (hroom : s.claimed + c.draws ≤ U32_MAX) :
    Ledger (c.ownId.toList ++ own) [] (exec s c) ∧ (exec s c).claimed ≤ s.claimed + c.draws := by
  cases c with
  | Emit id inst =>
    obtain ⟨t, ht, hl, hc⟩ := emit_inst_spec inst id h hroom
    refine ⟨?_, ?_⟩
    · show Ledger _ _ (emit_inst s id inst)
      rw [ht]
      exact hl.record_own inst (hid id rfl)
    · show (emit_inst s id inst).claimed ≤ _
      rw [ht, record_claimed]
      exact hc
  | Fresh inst =>
    have hnext : s.next_synthetic_id + 1 ≤ U32_MAX :=
      Nat.le_trans (Nat.add_le_add_right (Nat.le_add_right ..) 1) hroom
    have hclaim : (alloc_synthetic_id s).2.claimed = s.claimed + 1 := by
      have hn : (alloc_synthetic_id s).2.next_synthetic_id = s.next_synthetic_id + 1 :=
        Nat.min_eq_left hnext
      unfold EmitPassState.claimed
      rw [hn]
      show s.next_synthetic_id + 1 + 2 * s.pending_frame_prologue.length = _
      omega
    obtain ⟨t, ht, hl, hc⟩ := emit_inst_spec inst s.next_synthetic_id (h.alloc hnext)
      (by rw [hclaim]; exact hroom)
    refine ⟨?_, ?_⟩
    · show Ledger _ _ (emit_inst (alloc_synthetic_id s).2 s.next_synthetic_id inst)
      rw [ht]
      exact hl.record_out inst
    · show (emit_inst (alloc_synthetic_id s).2 s.next_synthetic_id inst).claimed ≤ _
      rw [ht, record_claimed]
      exact hclaim ▸ hc
  | InsertLabel name id => exact ⟨h.congr rfl rfl, Nat.le_refl _⟩
  | RegisterLabel name => exact ⟨h, Nat.le_refl _⟩
  | Enter lambda_id framed first =>
    refine ⟨h.congr rfl rfl, ?_⟩
    unfold EmitPassState.claimed
    cases framed with
    | false => exact Nat.le_refl _
    | true =>
      show s.next_synthetic_id + 2 * (s.pending_frame_prologue.length + 1) ≤ _
      simp only [Command.draws]
      omega

/-- The run lemma: the ids of the commands, newest first, and a range of synthetic
ones. -/
theorem execAll_spec {cmds : List Command} (hids : ∀ id ∈ ownIds cmds, id < SYNTHETIC_BASE)
    (hroom : s.claimed + (cmds.map Command.draws).sum ≤ U32_MAX) :
    Ledger ((ownIds cmds).reverse ++ own) [] (execAll s cmds) := by
  induction cmds generalizing s own with
  | nil => exact h
  | cons c rest ih =>
    rw [List.map_cons, List.sum_cons] at hroom
    have hcons : ownIds (c :: rest) = c.ownId.toList ++ ownIds rest := by
      unfold ownIds
      cases hc : c.ownId <;> simp [hc]
    rw [hcons] at hids
    obtain ⟨h₁, hc₁⟩ := exec_spec h
      (fun id hid => hids id (List.mem_append_left _ (by simpa using hid))) (by omega)
    have hrest := ih h₁ (fun id hid => hids id (List.mem_append_right _ hid)) (by omega)
    have horder : (ownIds (c :: rest)).reverse ++ own =
        (ownIds rest).reverse ++ (c.ownId.toList ++ own) := by
      rw [hcons, List.reverse_append, List.append_assoc]
      cases c.ownId <;> rfl
    rw [horder]
    exact hrest

/-- With the counter never at its end, two ids of a run are equal only if two ids of
its commands are. -/
theorem Ledger.nodup_iff : s.ids.Nodup ↔ own.Nodup := by
  have hperm := List.filter_append_perm (· < SYNTHETIC_BASE) s.ids
  have hhigh : (s.ids.filter (fun id => !decide (id < SYNTHETIC_BASE))).Nodup := by
    have := h.high
    rw [List.append_nil] at this
    exact this.nodup_iff.mpr (List.nodup_range' ..)
  rw [← hperm.nodup_iff, h.low, nodup_append]
  constructor
  · intro hnd
    exact hnd.1
  · intro hown
    refine ⟨hown, hhigh, ?_⟩
    intro a ha b hb hab
    rw [← h.low, mem_filter] at ha
    rw [mem_filter] at hb
    simp only [decide_eq_true_eq, Bool.not_eq_true', decide_eq_false_iff_not] at ha hb
    omega

theorem Ledger.mem_ids {id : Nat} (hid : id ∈ s.ids) : id ∈ own ∨ SYNTHETIC_BASE ≤ id := by
  rcases Nat.lt_or_ge id SYNTHETIC_BASE with hlt | hge
  · rw [← h.low, mem_filter]
    exact .inl ⟨hid, by simpa using hlt⟩
  · exact .inr hge

end

end

/-! ## The unsafe blocks after the walk -/

/-- The arena has grown: its new instructions are on new nodes, each on one of its
own. -/
structure Grown (a a' : IrArena) : Prop where
  len : a.len ≤ a'.len
  new : ∃ new, a'.instructions = new ++ a.instructions ∧ (new.map (·.1)).Nodup ∧
    ∀ e ∈ new, a.len < e.1 ∧ e.1 ≤ a'.len

theorem Grown.refl (a : IrArena) : Grown a a := ⟨Nat.le_refl _, [], rfl, List.nodup_nil, by simp⟩

theorem Grown.trans {a b c : IrArena} (h : Grown a b) (h' : Grown b c) : Grown a c := by
  obtain ⟨hlen, new, hnew, hnd, hin⟩ := h
  obtain ⟨hlen', new', hnew', hnd', hin'⟩ := h'
  refine ⟨by omega, new' ++ new, by rw [hnew', hnew, List.append_assoc], ?_, ?_⟩
  · rw [List.map_append, nodup_append]
    refine ⟨hnd', hnd, ?_⟩
    intro k hk k' hk' heq
    obtain ⟨e, he, rfl⟩ := mem_map.mp hk
    obtain ⟨e', he', rfl⟩ := mem_map.mp hk'
    have := hin' e he
    have := hin e' he'
    omega
  · intro e he
    rcases mem_append.mp he with he | he
    · have := hin' e he
      omega
    · have := hin e he
      omega

theorem grown_alloc (a : IrArena) : Grown a a.alloc.2 :=
  ⟨Nat.le_succ _, [], rfl, List.nodup_nil, by simp⟩

/-- An instruction on the node that was allocated for it. -/
theorem grown_insert (a : IrArena) (inst : Instruction) (order : Nat) :
    Grown a (a.alloc.2.insert a.alloc.1 inst order) := by
  refine ⟨Nat.le_succ _, [(a.alloc.1, inst, order)], rfl, by simp, ?_⟩
  intro e he
  cases List.mem_singleton.mp he
  exact ⟨Nat.lt_succ_self _, Nat.le_refl _⟩

section

variable (env : Env) (lambda_id : Option Nat)

theorem insert_instruction_grown (w : Walk) (inst : Instruction) :
    Grown w.arena (insert_instruction w lambda_id inst).2.arena := by
  unfold insert_instruction
  dsimp only
  split
  · split
    · unfold expand_bitop_imm64
      split
      · exact grown_alloc _
      · exact ((grown_alloc _).trans (grown_insert _ _ _)).trans (grown_insert _ _ _)
    · exact grown_insert _ _ _
  · exact grown_insert _ _ _

theorem process_instruction_grown (labels : List String) (w : Walk) (mnemonic : String)
    (operands : List Expr) :
    Grown w.arena (process_instruction_stmt env labels lambda_id w mnemonic operands).2.arena := by
  unfold process_instruction_stmt
  split
  · exact Grown.refl _
  · exact insert_instruction_grown lambda_id (w.report _) _

theorem walk_stmt_grown (b : Block) (s : BlockWalk) (stmt : Stmt) :
    Grown s.walk.arena (walk_stmt env b s stmt).walk.arena := by
  cases stmt with
  | Label name => exact Grown.refl _
  | Instruction mnemonic operands =>
    have h := process_instruction_grown env (env.unsafe_body_to_lambda b.ir_node_id) b.labels s.walk
      mnemonic operands
    unfold walk_stmt
    dsimp only
    split
    all_goals
      rename_i heq
      rw [heq] at h
      exact h
  | Expr =>
    unfold walk_stmt
    dsimp only
    split
    · exact Grown.refl _
    · exact grown_insert _ _ _
  | Other kind => exact Grown.refl _

theorem walk_block_grown (w : Walk) (b : Block) : Grown w.arena (walk_block env w b).arena := by
  have hstmts (s : BlockWalk) (stmts : List Stmt) :
      Grown s.walk.arena (stmts.foldl (walk_stmt env b) s).walk.arena := by
    induction stmts generalizing s with
    | nil => exact Grown.refl _
    | cons stmt rest ih => exact (walk_stmt_grown env b s stmt).trans (ih _)
  exact hstmts (enter_block w b) b.stmts

theorem run_grown (w : Walk) (pending_ids : List Nat) (exprs : List (List Stmt)) :
    Grown w.arena (run env w pending_ids exprs).arena := by
  unfold run
  generalize match_blocks pending_ids exprs = blocks
  induction blocks generalizing w with
  | nil => exact Grown.refl _
  | cons b rest ih => exact (walk_block_grown env w b).trans (ih _)

end

/-! ## The instruction table -/

/-- One walk, and the blocks that are lowered after it. -/
structure Pass where
  env : Env
  len : Nat
  work : Work
  pending_ids : List Nat
  exprs : List (List Stmt)

def Pass.walk (p : Pass) : EmitPassState := execAll (.default p.env.instr_mode) (script p.work)

def sync_state_instructions_to_arena (s : EmitPassState) (arena : IrArena) : IrArena :=
  { arena with instructions := s.instructions ++ arena.instructions }

/-- The unsafe walker starts on the arena with the instructions of the walk. -/
def Pass.blocks (p : Pass) : Walk :=
  run p.env ⟨sync_state_instructions_to_arena p.walk ⟨p.len, []⟩, p.walk.next_emission_order,
    p.walk.instr_to_lambda, [], [], [], [], [], []⟩ p.pending_ids p.exprs

/-- The arena that the encoder reads: the instructions of the walk are copied once
more after the blocks. -/
def Pass.arena (p : Pass) : IrArena := sync_state_instructions_to_arena p.walk p.blocks.arena

/-- The arena gives this id to an unsafe block. -/
def Pass.Later (p : Pass) (id : Nat) : Prop := p.len < id ∧ id ≤ p.blocks.arena.len

/-- No instruction is lost: the ids of the walk are all different, and none is an id
of the blocks, so that the table holds every instruction under its id and every label
keeps the instruction it was bound to. -/
structure Pass.Intact (p : Pass) : Prop where
  distinct : p.walk.ids.Nodup
  not_later : ∀ id ∈ p.walk.ids, ¬ p.Later id
  kept : ∀ e ∈ p.blocks.arena.instructions, p.arena.instructions.lookup e.1 = some e.2
  anchored : ∀ pre post name id, script p.work = pre ++ .InsertLabel name id :: post →
    ∀ e, (execAll (.default p.env.instr_mode) pre).instructions.lookup id = some e →
      p.arena.instructions.lookup id = some e

section

variable {α : Type} {l : List (Nat × α)} {k : Nat}

theorem lookup_of_mem (h : (l.map (·.1)).Nodup) {v : α}
    (hmem : (k, v) ∈ l) : l.lookup k = some v := by
  obtain ⟨pre, post, rfl⟩ := List.append_of_mem hmem
  rw [List.lookup_eq_some_iff]
  refine ⟨pre, post, rfl, ?_⟩
  intro e he
  rw [List.map_append, nodup_append] at h
  have hne := h.2.2 e.1 (List.mem_map_of_mem he) k (by simp)
  simpa [bne_iff_ne] using hne.symm

theorem mem_of_lookup {v : α} (h : l.lookup k = some v) : (k, v) ∈ l := by
  obtain ⟨pre, post, rfl, -⟩ := List.lookup_eq_some_iff.mp h
  simp

theorem lookup_none (h : k ∉ l.map (·.1)) : l.lookup k = none := by
  rw [List.lookup_eq_none_iff]
  intro e he
  rw [bne_iff_ne]
  rintro rfl
  exact h (List.mem_map_of_mem he)

end

/-- Emission only adds to the table. -/
theorem exec_suffix (s : EmitPassState) (c : Command) :
    s.instructions <:+ (exec s c).instructions := by
  have hrec (s : EmitPassState) (id : Nat) (inst : Instruction) :
      s.instructions <:+ (record s id inst).instructions := by
    unfold record
    dsimp only
    split <;> exact List.suffix_cons ..
  have hemit (s : EmitPassState) (id : Nat) (inst : Instruction) :
      s.instructions <:+ (emit_inst s id inst).instructions := by
    unfold emit_inst
    split
    · obtain ⟨push, mov, first, hspec⟩ := emit_frame_prologue_eq s
      have hframe : s.instructions <:+ (emit_frame_prologue s).instructions := by
        rw [hspec]
        exact (hrec (alloc_synthetic_id (takeFrame s)).2 _ push).trans
          (hrec (alloc_synthetic_id (recordFresh (takeFrame s) push)).2 _ mov)
      exact hframe.trans (hrec _ _ _)
    · exact hrec _ _ _
  cases c with
  | Emit id inst => exact hemit s id inst
  | Fresh inst => exact hemit (alloc_synthetic_id s).2 _ inst
  | InsertLabel name id => exact suffix_refl _
  | RegisterLabel name => exact suffix_refl _
  | Enter lambda_id framed first => exact suffix_refl _

theorem execAll_suffix (s : EmitPassState) (cmds : List Command) :
    s.instructions <:+ (execAll s cmds).instructions := by
  induction cmds generalizing s with
  | nil => exact suffix_refl _
  | cons c rest ih => exact (exec_suffix s c).trans (ih _)

section

variable {p : Pass}

theorem blocks_instructions : ∃ new, p.blocks.arena.instructions = new ++ p.walk.instructions ∧
    (new.map (·.1)).Nodup ∧ ∀ e ∈ new, p.Later e.1 := by
  obtain ⟨-, new, hnew, hnd, hin⟩ := run_grown p.env ⟨sync_state_instructions_to_arena p.walk
    ⟨p.len, []⟩, p.walk.next_emission_order, p.walk.instr_to_lambda, [], [], [], [], [], []⟩
    p.pending_ids p.exprs
  refine ⟨new, ?_, hnd, hin⟩
  unfold Pass.blocks
  rw [hnew]
  simp [sync_state_instructions_to_arena]

/-- Different ids are all it takes. -/
theorem intact_of_distinct (hd : p.walk.ids.Nodup) (hl : ∀ id ∈ p.walk.ids, ¬ p.Later id) :
    p.Intact := by
  have hwalk (k v) (hmem : (k, v) ∈ p.walk.instructions) :
      p.arena.instructions.lookup k = some v := by
    unfold Pass.arena sync_state_instructions_to_arena
    rw [lookup_append, lookup_of_mem hd hmem]
    rfl
  refine ⟨hd, hl, ?_, ?_⟩
  · intro e he
    obtain ⟨new, hnew, hnd, hin⟩ := @blocks_instructions p
    rw [hnew] at he
    rcases mem_append.mp he with he | he
    · have hnot : e.1 ∉ p.walk.instructions.map (·.1) := fun h => hl _ h (hin e he)
      unfold Pass.arena sync_state_instructions_to_arena
      rw [hnew, lookup_append, lookup_none hnot, lookup_append, lookup_of_mem hnd he]
      rfl
    · exact hwalk e.1 e.2 he
  · intro pre post name id hscript e he
    have hsuffix : (execAll (.default p.env.instr_mode) pre).instructions <:+ p.walk.instructions := by
      unfold Pass.walk
      rw [hscript]
      unfold execAll
      rw [List.foldl_append]
      exact execAll_suffix _ _
    exact hwalk id e (hsuffix.subset (mem_of_lookup he))

end

/-! ## When the ids are different -/

/-- The numbers stay in their ranges: what the emitters compute from node ids is
below the synthetic ids, and the synthetic ids do not run out. -/
structure Pass.InRange (p : Pass) : Prop where
  rows : ∀ s ∈ reserved p.work, 10 * (s.row + 1) ≤ SYNTHETIC_BASE
  nodes : ∀ n ∈ nodes p.work, n < SYNTHETIC_BASE
  arena : p.blocks.arena.len < SYNTHETIC_BASE
  synthetic : SYNTHETIC_BASE + ((script p.work).map Command.draws).sum ≤ U32_MAX

/-- The matches keep their distance. Number the ids in rows of ten: a match reserves
columns of rows by its id, its arms and their alternatives, and no column of a row is
reserved twice, or is the id of a node or of an unsafe block. -/
structure Pass.Spaced (p : Pass) : Prop extends p.InRange where
  matches_apart : (reserved p.work).Pairwise Apart
  nodes_distinct : (emit_walker.nodes p.work).Nodup
  nodes_free : ∀ n ∈ emit_walker.nodes p.work, ∀ s ∈ reserved p.work,
    n / 10 = s.row → n % 10 ∉ s.cols
  blocks_free : ∀ n, p.Later n → ∀ s ∈ reserved p.work, n / 10 = s.row → n % 10 ∉ s.cols
  blocks_new : ∀ n ∈ emit_walker.nodes p.work, ¬ p.Later n

section

variable {p : Pass}

/-- In range, nothing wraps. -/
theorem stripIds_eq_cells (h : p.InRange) :
    stripIds (reserved p.work) = cells 10 (reserved p.work) := by
  unfold stripIds
  rw [List.map_congr_left (g := fun x => x)]
  · exact List.map_id' _
  · intro n hn
    obtain ⟨s, hs, hns⟩ := mem_flatMap.mp hn
    obtain ⟨c, hc, rfl⟩ := mem_cells.mp hns
    have hc := (reserved_fit p.work s hs).lt c hc
    have hrow := h.rows s hs
    apply u32_of_lt
    unfold SYNTHETIC_BASE at hrow
    omega

theorem walk_ids (h : p.InRange) : (ownIds (script p.work)).Perm
    (cells 10 (reserved p.work) ++ nodes p.work) :=
  stripIds_eq_cells h ▸ script_ids_split p.work

theorem walk_ledger (h : p.InRange) : Ledger (ownIds (script p.work)).reverse [] p.walk := by
  have hlow : ∀ id ∈ ownIds (script p.work), id < SYNTHETIC_BASE := by
    intro id hid
    rcases mem_append.mp ((walk_ids h).mem_iff.mp hid) with hid | hid
    · obtain ⟨s, hs, hns⟩ := mem_flatMap.mp hid
      obtain ⟨c, hc, rfl⟩ := mem_cells.mp hns
      have hc := (reserved_fit p.work s hs).lt c hc
      have hrow := h.rows s hs
      omega
    · exact h.nodes id hid
  have hrun := execAll_spec (ledger_default p.env.instr_mode) hlow h.synthetic
  rwa [List.append_nil] at hrun

theorem not_mem_cells_iff {n : Nat} : n ∉ cells 10 (reserved p.work) ↔
    ∀ s ∈ reserved p.work, n / 10 = s.row → n % 10 ∉ s.cols := by
  unfold cells
  rw [mem_flatMap, not_exists]
  constructor
  · intro h s hs hrow hcol
    exact h s ⟨hs, (mem_cells_iff (reserved_fit p.work s hs)).mpr ⟨hrow, hcol⟩⟩
  · rintro h s ⟨hs, hn⟩
    obtain ⟨hrow, hcol⟩ := (mem_cells_iff (reserved_fit p.work s hs)).mp hn
    exact h s hs hrow hcol

theorem distinct_iff (h : p.InRange) : p.walk.ids.Nodup ↔
    (reserved p.work).Pairwise Apart ∧ (nodes p.work).Nodup ∧
      ∀ n ∈ nodes p.work, ∀ s ∈ reserved p.work, n / 10 = s.row → n % 10 ∉ s.cols := by
  rw [(walk_ledger h).nodup_iff, List.nodup_reverse, (walk_ids h).nodup_iff, List.nodup_append',
    nodup_cells_iff (reserved_fit p.work), List.disjoint_right]
  simp only [not_mem_cells_iff]

theorem not_later_iff (h : p.InRange) : (∀ id ∈ p.walk.ids, ¬ p.Later id) ↔
    (∀ n, p.Later n → ∀ s ∈ reserved p.work, n / 10 = s.row → n % 10 ∉ s.cols) ∧
      ∀ n ∈ nodes p.work, ¬ p.Later n := by
  have hperm := (List.reverse_perm (ownIds (script p.work))).trans (walk_ids h)
  have hlow (id) (hid : id ∈ cells 10 (reserved p.work) ++ nodes p.work) : id ∈ p.walk.ids := by
    have := hperm.mem_iff.mpr hid
    rw [← (walk_ledger h).low, mem_filter] at this
    exact this.1
  constructor
  · intro hlater
    refine ⟨fun n hn => not_mem_cells_iff.mp ?_, fun n hn => ?_⟩
    · intro hmem
      exact hlater n (hlow n (List.mem_append_left _ hmem)) hn
    · exact hlater n (hlow n (List.mem_append_right _ hn))
  · rintro ⟨hrows, hnodes⟩ id hid hl
    rcases (walk_ledger h).mem_ids hid with hown | hsyn
    · rcases mem_append.mp (hperm.mem_iff.mp hown) with hmem | hmem
      · exact not_mem_cells_iff.mpr (hrows id hl) hmem
      · exact hnodes id hmem hl
    · have harena := h.arena
      have hle := hl.2
      omega

/-- With every number in its range, no instruction is lost just when the matches keep
their distance. -/
theorem walk_intact_iff (p : Pass) : p.Intact ∧ p.InRange ↔ p.Spaced := by
  constructor
  · rintro ⟨hint, hrange⟩
    obtain ⟨hap, hnd, hfree⟩ := (distinct_iff hrange).mp hint.distinct
    obtain ⟨hblocks, hnew⟩ := (not_later_iff hrange).mp hint.not_later
    exact ⟨hrange, hap, hnd, hfree, hblocks, hnew⟩
  · intro h
    have hrange := h.toInRange
    have hd := (distinct_iff hrange).mpr ⟨h.matches_apart, h.nodes_distinct, h.nodes_free⟩
    have hl := (not_later_iff hrange).mpr ⟨h.blocks_free, h.blocks_new⟩
    exact ⟨intact_of_distinct hd hl, hrange⟩

end

def literalArm (arm_meta : MatchArmMeta) (value : Int64) (rest : Arms) : Arms :=
  .Cons ⟨some arm_meta, some (.Literal (some value)), []⟩ .Done .Done .Done rest

/-- A match on an enum of 24 bytes, and a match on an integer. -/
def twoMatches : Work :=
  .Visit ⟨10, .Mode64, false, some (.Var (some "e") (some (.Reg RDI)) false), none, some ⟨24, 16⟩⟩
    (literalArm { MatchArmMeta.default with variant_index := some 0 } 1
      (literalArm { MatchArmMeta.default with is_default := true } 2 .Nil))
    (.Visit ⟨19, .Mode64, true, some (.Literal (some 3)), none, none⟩
      (literalArm { MatchArmMeta.default with int_pattern_value := some 3 } 1
        (literalArm { MatchArmMeta.default with is_default := true } 2 .Nil))
      .Done)

/-- The load of the discriminant of match 10 and the first comparison of match 19 are
both on id 1900. -/
theorem discriminant_load_lost :
    ¬ Pass.Intact ⟨⟨none, fun _ => false, .Mode64, [], fun _ => none⟩, 30, twoMatches, [], []⟩ := by
  intro h
  have hd := h.distinct
  revert hd
  decide

end paideia_as_elaborator.emit_walker
