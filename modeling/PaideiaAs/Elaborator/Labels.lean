-- Local labels of unsafe blocks: the table that a run returns, against the
-- statement that follows each label in its own block.
import PaideiaAs.Elaborator.UnsafeWalker
import PaideiaAs.Lib.Anchors

namespace paideia_as_elaborator

open paideia_as_runtime

section

variable {env : Env} {labels : List String} {lambda : Option Nat} {w : Walk}

theorem expand_bitop_spec (inst : Instruction) (dst : RegId) (imm : Int64) :
    (expand_bitop_imm64 w lambda inst dst imm).2.label_to_instr = w.label_to_instr ∧
      w.arena.len ≤ (expand_bitop_imm64 w lambda inst dst imm).2.arena.len ∧
      ∀ id, (expand_bitop_imm64 w lambda inst dst imm).1 = some id →
        w.arena.len < id ∧ id ≤ (expand_bitop_imm64 w lambda inst dst imm).2.arena.len := by
  unfold expand_bitop_imm64
  split
  · simp
  · simp only [Walk.alloc, IrArena.alloc, Walk.put, IrArena.insert, Option.some.injEq, true_and]
    refine ⟨by omega, ?_⟩
    rintro id rfl
    omega

theorem insert_instruction_spec (inst : Instruction) :
    (insert_instruction w lambda inst).2.label_to_instr = w.label_to_instr ∧
      w.arena.len ≤ (insert_instruction w lambda inst).2.arena.len ∧
      ∀ id, (insert_instruction w lambda inst).1 = some id →
        w.arena.len < id ∧ id ≤ (insert_instruction w lambda inst).2.arena.len := by
  have hput : ∀ id, (w.alloc.2.put lambda id inst).label_to_instr = w.label_to_instr ∧
      (w.alloc.2.put lambda id inst).arena.len = w.arena.len + 1 := fun id => ⟨rfl, rfl⟩
  have hplain : w.label_to_instr = w.label_to_instr ∧ w.arena.len ≤ w.arena.len + 1 ∧
      ∀ id, some (w.arena.len + 1) = some id → w.arena.len < id ∧ id ≤ w.arena.len + 1 := by
    refine ⟨rfl, by omega, ?_⟩
    rintro id h
    cases h
    omega
  unfold insert_instruction
  dsimp only
  split
  · split
    · obtain ⟨h1, h2, h3⟩ := @expand_bitop_spec lambda w.alloc.2 inst _ _
      refine ⟨h1, ?_, fun id hid => ?_⟩
      · exact Nat.le_trans (by simp [Walk.alloc, IrArena.alloc]) h2
      · obtain ⟨h4, h5⟩ := h3 id hid
        exact ⟨Nat.lt_of_le_of_lt (by simp [Walk.alloc, IrArena.alloc]) h4, h5⟩
    · exact hplain
  · exact hplain

/-- A statement leaves the label table alone, and its node is a new one. -/
theorem process_instruction_spec (m : String) (ops : List Expr) :
    (process_instruction_stmt env labels lambda w m ops).2.label_to_instr = w.label_to_instr ∧
      w.arena.len ≤ (process_instruction_stmt env labels lambda w m ops).2.arena.len ∧
      ∀ id, (process_instruction_stmt env labels lambda w m ops).1 = some id →
        w.arena.len < id ∧
          id ≤ (process_instruction_stmt env labels lambda w m ops).2.arena.len := by
  unfold process_instruction_stmt
  split
  · refine ⟨rfl, Nat.le_refl _, ?_⟩
    intro id h
    cases h
  · rename_i diags inst _
    exact @insert_instruction_spec lambda (w.report diags) inst

end

/-! ## The node of each statement -/

/-- The node that a statement gets: an instruction, or the marker before a call
statement that a label waits for. -/
def stmtNode (env : Env) (b : Block) (s : BlockWalk) : Stmt → Option Nat
  | .Instruction m ops =>
    (process_instruction_stmt env b.labels (env.unsafe_body_to_lambda b.ir_node_id) s.walk m ops).1
  | .Expr => if s.pending_labels = [] then none else some (s.walk.arena.len + 1)
  | _ => none

def stmtItem (env : Env) (b : Block) (s : BlockWalk) (stmt : Stmt) : Anchors.Item String Nat :=
  match stmt with
  | .Label name => .label name
  | stmt => .node (stmtNode env b s stmt)

/-- The labels and nodes of the statements of a block, in order. -/
def blockItems (env : Env) (b : Block) (s : BlockWalk) : List Stmt → List (Anchors.Item String Nat)
  | [] => []
  | stmt :: rest => stmtItem env b s stmt :: blockItems env b (walk_stmt env b s stmt) rest

/-- The statement is lowered, whatever was walked before it. -/
def Accepted (env : Env) (b : Block) : Stmt → Prop
  | .Instruction m ops => ∀ w, (process_instruction_stmt env b.labels
      (env.unsafe_body_to_lambda b.ir_node_id) w m ops).1.isSome
  | .Other _ => False
  | _ => True

def BlockWalk.anchors (s : BlockWalk) : Anchors.State String Nat :=
  ⟨s.pending_labels, s.walk.label_to_instr⟩

section

variable {env : Env} {b : Block} {s : BlockWalk} {stmts : List Stmt}

/-- A step of the walk is a step of the label sequence. -/
theorem walk_stmt_anchors {stmt : Stmt} (h : Accepted env b stmt) :
    (walk_stmt env b s stmt).anchors = Anchors.step s.anchors (stmtItem env b s stmt) := by
  cases stmt with
  | Label name => rfl
  | Instruction m ops =>
    obtain ⟨id, hid⟩ := Option.isSome_iff_exists.mp (h s.walk)
    have hkeep := (@process_instruction_spec env b.labels
      (env.unsafe_body_to_lambda b.ir_node_id) s.walk m ops).1
    simp only [walk_stmt, stmtItem, stmtNode, hid, Anchors.step, BlockWalk.anchors]
    generalize process_instruction_stmt env b.labels
      (env.unsafe_body_to_lambda b.ir_node_id) s.walk m ops = r at hid hkeep
    obtain ⟨o, w'⟩ := r
    cases hid
    simp only [bind_labels, Anchors.claim]
    rw [hkeep]
  | Expr =>
    simp only [walk_stmt, stmtItem, stmtNode, BlockWalk.anchors]
    split
    · rfl
    · rfl
  | Other kind => exact h.elim

/-- Nodes are new, and the arena only grows. -/
theorem walk_stmt_grows (stmt : Stmt) : s.walk.arena.len ≤ (walk_stmt env b s stmt).walk.arena.len ∧
      ∀ id, stmtNode env b s stmt = some id →
        s.walk.arena.len < id ∧ id ≤ (walk_stmt env b s stmt).walk.arena.len := by
  cases stmt with
  | Label name => exact ⟨Nat.le_refl _, fun id h => by cases h⟩
  | Instruction m ops =>
    obtain ⟨_, hlen, hnode⟩ := @process_instruction_spec env b.labels
      (env.unsafe_body_to_lambda b.ir_node_id) s.walk m ops
    have hwalk : (walk_stmt env b s (.Instruction m ops)).walk.arena.len =
        (process_instruction_stmt env b.labels (env.unsafe_body_to_lambda b.ir_node_id)
          s.walk m ops).2.arena.len := by
      unfold walk_stmt
      dsimp only
      split
      · rename_i heq
        rw [heq]
        rfl
      · rename_i heq
        rw [heq]
    rw [hwalk]
    exact ⟨hlen, hnode⟩
  | Expr =>
    unfold walk_stmt stmtNode
    dsimp only
    split
    · exact ⟨Nat.le_refl _, fun id h => by cases h⟩
    · refine ⟨?_, ?_⟩
      · simp [bind_labels, put_marker, Walk.alloc, IrArena.alloc, IrArena.insert]
      · rintro id h
        cases h
        simp [bind_labels, put_marker, Walk.alloc, IrArena.alloc, IrArena.insert]
  | Other kind => exact ⟨Nat.le_refl _, fun id h => by cases h⟩

theorem walk_anchors (h : ∀ stmt ∈ stmts, Accepted env b stmt) :
    (stmts.foldl (walk_stmt env b) s).anchors =
      Anchors.run s.anchors (blockItems env b s stmts) := by
  induction stmts generalizing s with
  | nil => rfl
  | cons stmt rest ih =>
    rw [List.foldl_cons, ih fun t ht => h t (List.mem_cons_of_mem _ ht),
      walk_stmt_anchors (h stmt (.head _))]
    rfl

theorem walk_grows : s.walk.arena.len ≤ (stmts.foldl (walk_stmt env b) s).walk.arena.len := by
  induction stmts generalizing s with
  | nil => exact Nat.le_refl _
  | cons stmt rest ih => exact Nat.le_trans (walk_stmt_grows stmt).1 ih

theorem labels_blockItems :
    Anchors.labels (blockItems env b s stmts) = stmts.filterMap Stmt.label? := by
  induction stmts generalizing s with
  | nil => rfl
  | cons stmt rest ih =>
    have ih := @ih (walk_stmt env b s stmt)
    unfold Anchors.labels at ih ⊢
    cases stmt <;> simp [blockItems, stmtItem, List.filterMap_cons, Stmt.label?, ih]

theorem prompt_blockItems (h : ∀ stmt ∈ stmts, Accepted env b stmt) :
    Anchors.Prompt s.anchors (blockItems env b s stmts) := by
  induction stmts generalizing s with
  | nil => trivial
  | cons stmt rest ih =>
    have hstep := @walk_stmt_anchors env b s stmt (h stmt (.head _))
    have ih := @ih (walk_stmt env b s stmt) fun t ht => h t (.tail _ ht)
    rw [hstep] at ih
    unfold blockItems
    cases hitem : stmtItem env b s stmt with
    | label name =>
      rw [hitem] at ih
      exact ih
    | node o =>
      rw [hitem] at ih
      cases o with
      | some id => exact ih
      | none =>
        refine ⟨?_, ih⟩
        cases stmt with
        | Label name => cases hitem
        | Instruction m ops =>
          have hsome := h (.Instruction m ops) (.head _) s.walk
          have hnone : stmtNode env b s (.Instruction m ops) = none := by
            simpa [stmtItem] using hitem
          rw [stmtNode] at hnone
          rw [hnone] at hsome
          cases hsome
        | Expr =>
          by_contra hne
          have : stmtNode env b s .Expr = none := by simpa [stmtItem] using hitem
          have hne' : ¬ s.pending_labels = [] := hne
          simp [stmtNode, hne'] at this
        | Other kind => exact (h (.Other kind) (.head _)).elim

theorem node_of_leads {id : Nat} (h : Anchors.Leads id (blockItems env b s stmts)) :
    s.walk.arena.len < id ∧ id ≤ (stmts.foldl (walk_stmt env b) s).walk.arena.len := by
  induction stmts generalizing s with
  | nil => exact h.elim
  | cons stmt rest ih =>
    unfold blockItems at h
    have hgrow := @walk_stmt_grows env b s stmt
    cases hitem : stmtItem env b s stmt with
    | label name =>
      rw [hitem] at h
      obtain ⟨h1, h2⟩ := ih h
      exact ⟨Nat.lt_of_le_of_lt hgrow.1 h1, h2⟩
    | node o =>
      rw [hitem] at h
      cases o with
      | none => exact h.elim
      | some m =>
        obtain rfl : m = id := h
        have hnode : stmtNode env b s stmt = some m := by
          cases stmt <;> simp_all [stmtItem]
        obtain ⟨h1, h2⟩ := hgrow.2 m hnode
        exact ⟨h1, Nat.le_trans h2 walk_grows⟩

theorem node_of_follows {name : String} {id : Nat}
    (h : Anchors.Follows name id (blockItems env b s stmts)) :
    s.walk.arena.len < id ∧ id ≤ (stmts.foldl (walk_stmt env b) s).walk.arena.len := by
  induction stmts generalizing s with
  | nil => exact h.elim
  | cons stmt rest ih =>
    unfold blockItems at h
    have hgrow := (@walk_stmt_grows env b s stmt).1
    cases hitem : stmtItem env b s stmt with
    | label l =>
      rw [hitem] at h
      rcases h with ⟨_, hlead⟩ | h
      · obtain ⟨h1, h2⟩ := node_of_leads hlead
        exact ⟨Nat.lt_of_le_of_lt hgrow h1, h2⟩
      · obtain ⟨h1, h2⟩ := ih h
        exact ⟨Nat.lt_of_le_of_lt hgrow h1, h2⟩
    | node o =>
      rw [hitem] at h
      obtain ⟨h1, h2⟩ := ih h
      exact ⟨Nat.lt_of_le_of_lt hgrow h1, h2⟩

/-- The block declares the label, and a statement comes after it. -/
def Followed (name : String) : List Stmt → Prop
  | [] => False
  | .Label m :: rest => (m = name ∧ ∃ stmt ∈ rest, stmt.label? = none) ∨ Followed name rest
  | _ :: rest => Followed name rest

theorem leads_iff (h : ∀ stmt ∈ stmts, Accepted env b stmt) (hpend : s.pending_labels ≠ []) :
    (∃ id, Anchors.Leads id (blockItems env b s stmts)) ↔ ∃ stmt ∈ stmts, stmt.label? = none := by
  induction stmts generalizing s with
  | nil => simp [blockItems, Anchors.Leads]
  | cons stmt rest ih =>
    cases stmt with
    | Label name =>
      have ih := @ih (walk_stmt env b s (.Label name))
        (fun t ht => h t (List.mem_cons_of_mem _ ht)) (by simp [walk_stmt])
      simpa [blockItems, stmtItem, Anchors.Leads, Stmt.label?] using ih
    | Instruction m ops =>
      obtain ⟨id, hid⟩ := Option.isSome_iff_exists.mp (h (.Instruction m ops) (.head _) s.walk)
      refine iff_of_true ⟨id, ?_⟩ ⟨_, List.mem_cons_self .., rfl⟩
      simp [blockItems, stmtItem, stmtNode, hid, Anchors.Leads]
    | Expr =>
      refine iff_of_true ⟨s.walk.arena.len + 1, ?_⟩ ⟨_, List.mem_cons_self .., rfl⟩
      simp [blockItems, stmtItem, stmtNode, hpend, Anchors.Leads]
    | Other kind => exact (h (.Other kind) (.head _)).elim

theorem follows_iff (name : String) (h : ∀ stmt ∈ stmts, Accepted env b stmt) :
    (∃ id, Anchors.Follows name id (blockItems env b s stmts)) ↔ Followed name stmts := by
  induction stmts generalizing s with
  | nil => simp [blockItems, Anchors.Follows, Followed]
  | cons stmt rest ih =>
    have hrest : ∀ stmt ∈ rest, Accepted env b stmt := fun t ht => h t (.tail _ ht)
    have ih := @ih (walk_stmt env b s stmt) hrest
    cases stmt with
    | Label m =>
      have hlead := @leads_iff env b (walk_stmt env b s (.Label m)) rest hrest (by simp [walk_stmt])
      simp only [blockItems, stmtItem, Anchors.Follows, Followed]
      rw [exists_or, ih, exists_and_left, hlead]
    | _ => simpa [blockItems, stmtItem, Anchors.Follows, Followed] using ih

end

/-! ## Blocks one after the other -/

/-- A block of a run: every statement accepted, no label declared twice. -/
structure Sound (env : Env) (b : Block) : Prop where
  accepted : ∀ stmt ∈ b.stmts, Accepted env b stmt
  once : (b.stmts.filterMap Stmt.label?).Nodup

section

variable {env : Env} {w : Walk} {b : Block} {name : String}

theorem walk_block_len : w.arena.len ≤ (walk_block env w b).arena.len :=
  @walk_grows env b (enter_block w b) b.stmts

theorem walk_block_follows (hsound : Sound env b) {id : Nat}
    (h : Anchors.Follows name id (blockItems env b (enter_block w b) b.stmts)) :
    (walk_block env w b).label_to_instr.lookup name = some id ∧
      w.arena.len < id ∧ id ≤ (walk_block env w b).arena.len := by
  refine ⟨?_, @node_of_follows env b (enter_block w b) b.stmts name id h⟩
  have hrun := @walk_anchors env b (enter_block w b) b.stmts hsound.accepted
  have hlookup := Anchors.lookup_run_of_follows (s := (enter_block w b).anchors)
    (by simp [enter_block, BlockWalk.anchors]) (by rw [labels_blockItems]; exact hsound.once) h
  rw [← hrun] at hlookup
  exact hlookup

theorem walk_block_unfollowed (hsound : Sound env b) (h : ¬ Followed name b.stmts) :
    (walk_block env w b).label_to_instr.lookup name = w.label_to_instr.lookup name := by
  have hrun := @walk_anchors env b (enter_block w b) b.stmts hsound.accepted
  have hnone : ∀ id, ¬ Anchors.Follows name id (blockItems env b (enter_block w b) b.stmts) :=
    fun id hid => h ((follows_iff name hsound.accepted).mp ⟨id, hid⟩)
  have hlookup := Anchors.lookup_run_of_unfollowed (s := (enter_block w b).anchors)
    (by simp [enter_block, BlockWalk.anchors]) (prompt_blockItems hsound.accepted) hnone
  rw [← hrun] at hlookup
  exact hlookup

/-- Later blocks leave a label alone, or bind it to a newer node. -/
theorem walk_blocks_lookup {post : List Block} (hsound : ∀ c ∈ post, Sound env c) :
    ((∀ c ∈ post, ¬ Followed name c.stmts) →
      (post.foldl (walk_block env) w).label_to_instr.lookup name = w.label_to_instr.lookup name) ∧
    ((∃ c ∈ post, Followed name c.stmts) → ∃ id, w.arena.len < id ∧
      (post.foldl (walk_block env) w).label_to_instr.lookup name = some id) := by
  induction post generalizing w with
  | nil => simp
  | cons c post ih =>
    have hc := hsound c (.head _)
    obtain ⟨ih1, ih2⟩ := @ih (walk_block env w c) fun d hd => hsound d (.tail _ hd)
    have hlen := @walk_block_len env w c
    refine ⟨fun hnone => ?_, fun hsome => ?_⟩
    · rw [List.foldl_cons, ih1 fun d hd => hnone d (List.mem_cons_of_mem _ hd)]
      exact walk_block_unfollowed hc (hnone c (.head _))
    · by_cases hlater : ∃ d ∈ post, Followed name d.stmts
      · obtain ⟨id, hid, hlookup⟩ := ih2 hlater
        exact ⟨id, Nat.lt_of_le_of_lt hlen hid, hlookup⟩
      · have hfirst : Followed name c.stmts := by
          obtain ⟨d, hd, hfd⟩ := hsome
          rcases List.mem_cons.mp hd with rfl | hd
          · exact hfd
          · exact absurd ⟨d, hd, hfd⟩ hlater
        obtain ⟨id, hid⟩ := (@follows_iff env c (enter_block w c) c.stmts name hc.accepted).mpr hfirst
        obtain ⟨hlookup, hlt, _⟩ := walk_block_follows hc hid
        refine ⟨id, hlt, ?_⟩
        rw [List.foldl_cons, ih1 fun d hd hfd => hlater ⟨d, hd, hfd⟩, hlookup]

end

/-- A label reference that a statement of the block makes. -/
def Refers (env : Env) (b : Block) (name : String) : Prop :=
  ∃ m ops inst addend, Stmt.Instruction m ops ∈ b.stmts ∧
    (lower_instruction env b.labels m ops).2 = some inst ∧ .LabelRef name addend ∈ inst.operands

theorem refers_declared {env : Env} {b : Block} {name : String} (h : Refers env b name) :
    name ∈ b.labels := by
  obtain ⟨m, ops, inst, addend, _, hlower, hmem⟩ := h
  have hcheck : ∀ mnemonic parsed, (check_operands env b.labels m mnemonic ops parsed).2 = some inst →
      unknown_label b.labels parsed = none ∧ inst.operands = parsed := by
    intro mnemonic parsed hc
    unfold check_operands at hc
    split at hc
    · cases hc
    · rename_i hnone
      dsimp only at hc
      split at hc
      · cases hc
      · cases hc
        exact ⟨hnone, rfl⟩
  have hparsed : ∃ parsed, unknown_label b.labels parsed = none ∧ inst.operands = parsed := by
    unfold lower_instruction at hlower
    split at hlower
    · cases hlower
    · split at hlower
      · cases hlower
      · split at hlower
        · cases hlower
        · exact ⟨_, hcheck _ _ hlower⟩
  obtain ⟨parsed, hnone, rfl⟩ := hparsed
  have := List.findSome?_eq_none_iff.mp hnone _ hmem
  simpa using this

/-- The entry of a label that a block binds. -/
theorem lands_iff {env : Env} {w : Walk} {pre post : List Block} {b : Block} {name : String}
    (hb : Sound env b) (hpost : ∀ c ∈ post, Sound env c) :
    (∃ id, Anchors.Follows name id
        (blockItems env b (enter_block (pre.foldl (walk_block env) w) b) b.stmts) ∧
        ((pre ++ b :: post).foldl (walk_block env) w).label_to_instr.lookup name = some id) ↔
      Followed name b.stmts ∧ ∀ c ∈ post, ¬ Followed name c.stmts := by
  rw [List.foldl_append, List.foldl_cons]
  obtain ⟨hkeep, hnewer⟩ := @walk_blocks_lookup env
    (walk_block env (pre.foldl (walk_block env) w) b) name post hpost
  constructor
  · rintro ⟨id, hfollows, hlookup⟩
    obtain ⟨_, _, hle⟩ := walk_block_follows hb hfollows
    refine ⟨(follows_iff name hb.accepted).mp ⟨id, hfollows⟩, fun c hc hfollowed => ?_⟩
    obtain ⟨id', hlt, hlookup'⟩ := hnewer ⟨c, hc, hfollowed⟩
    obtain rfl : id' = id := by simpa [hlookup] using hlookup'.symm
    omega
  · rintro ⟨hfollowed, hnone⟩
    obtain ⟨id, hid⟩ := (follows_iff name hb.accepted).mpr hfollowed
    exact ⟨id, hid, (hkeep hnone).trans (walk_block_follows hb hid).1⟩

/-- In a run without a rejected statement, a label reference of a block is bound
to the node that follows its label in that block exactly if a statement comes
after the label and no later block binds the same name. -/
theorem label_reference_lands_iff (env : Env) (w : Walk) (pending_ids : List Nat)
    (exprs : List (List Stmt)) (pre post : List Block) (b : Block) (name : String)
    (hblocks : match_blocks pending_ids exprs = pre ++ b :: post)
    (hsound : ∀ c ∈ match_blocks pending_ids exprs, Sound env c) (href : Refers env b name) :
    name ∈ b.labels ∧
      ((∃ id, Anchors.Follows name id
          (blockItems env b (enter_block (pre.foldl (walk_block env) w) b) b.stmts) ∧
          (run env w pending_ids exprs).label_to_instr.lookup name = some id) ↔
        Followed name b.stmts ∧ ∀ c ∈ post, ¬ Followed name c.stmts) := by
  refine ⟨refers_declared href, ?_⟩
  rw [run, hblocks]
  exact lands_iff (hsound b (by simp [hblocks])) fun c hc => hsound c (by simp [hblocks, hc])

/-! Two blocks with the same label. -/

def plainEnv : Env := ⟨none, fun _ => false, .Mode64, [], fun _ => none⟩

def emptyWalk : Walk := ⟨⟨0, []⟩, 0, [], [], [], [], [], [], []⟩

/-- `again: nop; jmp again`. -/
def spin : List Stmt :=
  [.Label "again", .Instruction "nop" [], .Instruction "jmp" [.OperandRegister (.Ident "again")]]

theorem spin_sound (id : Nat) : Sound plainEnv ⟨id, spin⟩ := by
  have hnop : lower_instruction plainEnv ["again"] "nop" [] =
      ([], some ⟨.Nop, [], none, .Mode64⟩) := rfl
  have hjmp : lower_instruction plainEnv ["again"] "jmp" [.OperandRegister (.Ident "again")] =
      ([], some ⟨.Jmp, [.LabelRef "again" 0], none, .Mode64⟩) := rfl
  have hlabels : (⟨id, spin⟩ : Block).labels = ["again"] := by
    show collect_labels spin = ["again"]
    decide
  refine ⟨?_, show (spin.filterMap Stmt.label?).Nodup by decide⟩
  intro stmt hstmt
  simp only [spin, List.mem_cons, List.not_mem_nil, or_false] at hstmt
  rcases hstmt with rfl | rfl | rfl
  · trivial
  · intro w
    rw [hlabels, process_instruction_stmt, hnop]
    rfl
  · intro w
    rw [hlabels, process_instruction_stmt, hjmp]
    rfl

theorem spin_refers (id : Nat) : Refers plainEnv ⟨id, spin⟩ "again" :=
  ⟨"jmp", [.OperandRegister (.Ident "again")], ⟨.Jmp, [.LabelRef "again" 0], none, .Mode64⟩, 0,
    by simp [spin], rfl, List.mem_singleton.mpr rfl⟩

theorem one_block_lands :
    ∃ id, Anchors.Follows "again" id
        (blockItems plainEnv ⟨1, spin⟩ (enter_block emptyWalk ⟨1, spin⟩) spin) ∧
      (run plainEnv emptyWalk [1] [spin]).label_to_instr.lookup "again" = some id :=
  ((label_reference_lands_iff plainEnv emptyWalk [1] [spin] [] [] ⟨1, spin⟩ "again" rfl
    (by
      intro c hc
      obtain rfl : c = ⟨1, spin⟩ := List.mem_singleton.mp hc
      exact spin_sound 1)
    (spin_refers 1)).2).mpr ⟨.inl ⟨rfl, .Instruction "nop" [], by simp, rfl⟩, by simp⟩

/-- The jump of the first block goes to the second one. -/
theorem same_label_leaves_block :
    (∀ c ∈ match_blocks [1, 2] [spin, spin], Sound plainEnv c) ∧
      Refers plainEnv ⟨1, spin⟩ "again" ∧
      ¬ ∃ id, Anchors.Follows "again" id
          (blockItems plainEnv ⟨1, spin⟩ (enter_block emptyWalk ⟨1, spin⟩) spin) ∧
        (run plainEnv emptyWalk [1, 2] [spin, spin]).label_to_instr.lookup "again" = some id := by
  refine ⟨?_, spin_refers 1, ?_⟩
  · intro c hc
    have : c = ⟨1, spin⟩ ∨ c = ⟨2, spin⟩ := by simpa [match_blocks] using hc
    rcases this with rfl | rfl
    · exact spin_sound 1
    · exact spin_sound 2
  · intro h
    have hiff := @lands_iff plainEnv emptyWalk [] [⟨2, spin⟩] ⟨1, spin⟩ "again" (spin_sound 1)
      (by simpa using spin_sound 2)
    exact (hiff.mp h).2 ⟨2, spin⟩ (List.mem_singleton.mpr rfl)
      (.inl ⟨rfl, .Instruction "nop" [], by simp, rfl⟩)

end paideia_as_elaborator
