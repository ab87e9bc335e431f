-- The three emitters of `match`: integer cascade, enum cascade and jump table
-- (`emit_int_match.rs`, `emit_enum_match/`), as the commands they give.
import PaideiaAs.Elaborator.EmitCore

namespace paideia_as_elaborator.emit_walker

open paideia_as_runtime

/-! ## What the emitters read -/

structure MatchArmMeta where
  variant_index : Option Nat
  payload_binder : Option String
  is_default : Bool
  pattern_binding : Bool
  int_pattern_value : Option Int64
  guard : Bool
  alt_int_values : List Int64
  alt_variant_indices : List Nat
  outer_binder : Option String

def MatchArmMeta.default : MatchArmMeta := ⟨none, none, false, false, none, false, [], [], none⟩

/-- The kind of the arm's node. A literal has its value, a variable the register
that its name is bound to. -/
inductive ArmKind where
  | Action
  | Literal (value : Option Int64)
  | Var (reg : Option RegId)
  | App
  | Other

/-- An arm of a match: its row of the side table, its node, and the registers that
hold a binding when it is reached. -/
structure ArmNode where
  arm_meta : Option MatchArmMeta
  kind : Option ArmKind
  live : List RegId

/-- An arm with what its nested pattern, its guard and its body are. -/
structure Arm (α : Type) extends ArmNode where
  pattern : α
  guard : α
  body : α

structure MatchDispatchMeta where
  jump_table : Bool
  min_arm : Int64
  range : Nat
  covered_arms : Nat
  density_ok : Bool
  deriving DecidableEq

structure EnumLayout where
  size : Nat
  payload_size : Nat

/-- Where a local name lives. -/
inductive BindingHome where
  | Reg (r : RegId)
  | RegPair (r payload : RegId)
  | EnvSlot

/-- The node under `match`. A variable has its name, its local home, and whether a
module object has the name. -/
inductive Scrutinee where
  | Missing
  | Literal (value : Option Int64)
  | Var (name : Option String) (home : Option BindingHome) (object : Bool)
  | Other

/-- A match node and its rows of the side tables. `scrutinee` is `none` for a node
without children, `layout` for a match without a scrutinee type or layout. -/
structure MatchNode where
  id : Nat
  mode : InstrMode
  int_match : Bool
  scrutinee : Option Scrutinee
  dispatch : Option MatchDispatchMeta
  layout : Option EnumLayout

/-! ## Labels and single instructions -/

section

variable (m : MatchNode) (idx : Nat)

def default_label : String := "match_default_" ++ toString m.id
def end_label : String := "match_end_" ++ toString m.id
def arm_label : String := "match_arm_" ++ toString m.id ++ "_" ++ toString idx
def body_label : String := "match_arm_" ++ toString m.id ++ "_" ++ toString idx ++ "_body"

def RDI : RegId := ⟨7⟩
def RDX : RegId := ⟨2⟩

def nop : Instruction := ⟨.Nop, [], none, m.mode⟩
def jmp (label : String) : Instruction := ⟨.Jmp, [.LabelRef label 0], none, m.mode⟩
def jcc (c : Cond) (label : String) : Instruction := ⟨.Jcc c, [.LabelRef label 0], none, m.mode⟩
def cmp_rax (imm : Int64) : Instruction := ⟨.Cmp, [.Reg RAX, .Imm64 imm], none, m.mode⟩
def mov (dst src : RegId) : Instruction := ⟨.Mov, [.Reg dst, .Reg src], none, m.mode⟩
def mov_imm (dst : RegId) (imm : Int64) : Instruction := ⟨.Mov, [.Reg dst, .Imm64 imm], none, m.mode⟩
def load_rdi (dst : RegId) (disp : Int32) : Instruction :=
  ⟨.Mov, [.Reg dst, .MemSib RDI none .X1 disp], none, m.mode⟩

/-- A `nop` that a label is bound to. -/
def anchor (id : Nat) (label : String) : List Command := [.Emit id (nop m), .InsertLabel label id]

/-- Where a failed check of an arm goes. -/
def next_label {α : Type} (rest : List (Arm α)) : String :=
  match rest.head?.bind (·.arm_meta) with
  | some next_meta => if next_meta.is_default then default_label m else arm_label m (idx + 1)
  | none => default_label m

/-! ## The parts of an arm -/

/-- All alternatives of an or-pattern: each but the last goes to the body when it
is equal, and the last goes on when it is not. -/
def multi_alt (next : String) : Nat → List Int64 → List Command
  | _, [] => []
  | a_idx, pv :: rest =>
    .Emit (u32 (m.id * 1000 + idx * 100 + a_idx * 2)) (cmp_rax m pv) ::
    .Emit (u32 (m.id * 1000 + idx * 100 + a_idx * 2 + 1))
      (if rest.isEmpty then jcc m .Ne next else jcc m .Eq (body_label m idx)) ::
    multi_alt next (a_idx + 1) rest

def check_alts (next : String) : List Int64 → List Command
  | [] => []
  | [pv] =>
    [.Emit (u32 (m.id * 100 + idx * 10)) (cmp_rax m pv),
      .Emit (u32 (m.id * 100 + idx * 10 + 1)) (jcc m .Ne next)]
  | alts => multi_alt m idx next 0 alts ++
      anchor m (u32 (m.id * 1000 + idx * 100 + 98)) (body_label m idx)

/-- The guard, and the way on where it is 0. -/
def check_guard (next : String) (arm_meta : MatchArmMeta) (guard : List Command) : List Command :=
  if arm_meta.guard then
    guard ++ [.Emit (u32 (m.id * 100 + idx * 10 + 6)) ⟨.Test, [.Reg RAX, .Reg RAX], none, m.mode⟩,
      .Emit (u32 (m.id * 100 + idx * 10 + 7)) (jcc m .Zero next)]
  else []

/-- The anchors after the last arm of a cascade. -/
def cascade_end (default_arm_registered : Bool) : List Command :=
  (if default_arm_registered then []
    else anchor m (u32 (m.id * 100 + 997)) (default_label m)) ++
  anchor m (u32 (m.id * 100 + 999)) (end_label m)

/-! ## Integer matches -/

def emit_int_scrutinee_load : Scrutinee → List Command
  | .Literal (some value) => [.Fresh (mov_imm m RAX value)]
  | .Var (some _) (some (.Reg src_reg)) _ => [.Fresh (mov m RAX src_reg)]
  | .Var (some name) _ true => [.Fresh ⟨.Mov, [.Reg RAX, .MemRipRelSym name 0], none, m.mode⟩]
  | _ => []

def BINDER_POOL : List RegId := [⟨1⟩, ⟨8⟩, ⟨10⟩, ⟨11⟩]

/-- The register for `x @ ..`: the first of the pool without a binding, else `rax`. -/
def bound_reg (live : List RegId) : RegId := (BINDER_POOL.find? (!live.contains ·)).getD RAX

def bind_outer (arm_meta : MatchArmMeta) (live : List RegId) : List Command :=
  if arm_meta.outer_binder.isSome ∧ bound_reg live ≠ RAX then
    [.Fresh (mov m (bound_reg live) RAX)]
  else []

/-- The body of an arm of an integer match: a block, a literal on an id of its own,
or an expression into `rax`. -/
def emit_match_arm (kind : Option ArmKind) (body : List Command) : List Command :=
  match kind with
  | some .Action => body
  | some (.Literal (some value)) => [.Fresh (mov_imm m RAX value)]
  | some (.Var _) | some .App => body
  | _ => []

def int_alts (arm_meta : MatchArmMeta) : List Int64 :=
  if arm_meta.alt_int_values.isEmpty then arm_meta.int_pattern_value.toList
  else arm_meta.alt_int_values

def int_arm (next : String) (arm_meta : MatchArmMeta) (arm : Arm (List Command)) : List Command :=
  anchor m (u32 (m.id * 100 + idx * 10 + 8)) (arm_label m idx) ++
  check_alts m idx next (int_alts arm_meta) ++
  bind_outer m arm_meta arm.live ++
  check_guard m idx next arm_meta arm.guard ++
  emit_match_arm m arm.kind arm.body ++
  [.Emit (u32 (m.id * 100 + idx * 10 + 3)) (jmp m (end_label m))]

def int_default_arm (arm : Arm (List Command)) : List Command :=
  anchor m (u32 (m.id * 100 + 996)) (default_label m) ++ emit_match_arm m arm.kind arm.body

end

/-- The loop over the arms. An arm without a row of the side table is passed over. -/
def int_arms (m : MatchNode) : Bool → Nat → List (Arm (List Command)) → List Command
  | default_arm_registered, _, [] => cascade_end m default_arm_registered
  | default_arm_registered, idx, arm :: rest =>
    match arm.arm_meta with
    | none => int_arms m default_arm_registered (idx + 1) rest
    | some arm_meta =>
      if arm_meta.is_default then int_default_arm m arm ++ int_arms m true (idx + 1) rest
      else
        int_arm m idx (next_label m idx rest) arm_meta arm ++
        int_arms m default_arm_registered (idx + 1) rest

def visit_int_match (m : MatchNode) (arms : List (Arm (List Command))) : List Command :=
  match m.scrutinee with
  | none => []
  | some scrutinee =>
    if arms.isEmpty then []
    else emit_int_scrutinee_load m scrutinee ++ int_arms m false 0 arms

/-! ## Enum matches -/

section

variable (m : MatchNode) (idx : Nat)

def emit_scrutinee_load (layout : EnumLayout) : Scrutinee → List Command
  | .Var (some _) (some (.Reg src_reg)) _ =>
    if src_reg ≠ RAX then [.Fresh (mov m RAX src_reg)] else []
  | .Var (some _) (some (.RegPair src_reg payload_reg)) _ =>
    (if src_reg ≠ RAX then [.Fresh (mov m RAX src_reg)] else []) ++
    (if layout.payload_size > 0 ∧ payload_reg ≠ RDX then [.Fresh (mov m RDX payload_reg)] else [])
  | .Var (some name) _ true =>
    if layout.size > 16 then [.Fresh ⟨.Lea, [.Reg RDI, .MemRipRelSym name 0], none, m.mode⟩]
    else
      .Fresh ⟨.MovSized .W64, [.Reg RAX, .MemRipRelSym name 0], none, m.mode⟩ ::
      (if layout.payload_size > 0 then
        [.Fresh ⟨.MovSized .W64, [.Reg RDX, .MemRipRelSym name 8], none, m.mode⟩]
      else [])
  | _ => []

/-- The scrutinee of an enum match has to be a variable. -/
def Scrutinee.is_var : Scrutinee → Bool
  | .Missing | .Var _ _ _ => true
  | _ => false

def variant_alts (arm_meta : MatchArmMeta) : List Int64 :=
  (if arm_meta.alt_variant_indices.isEmpty then arm_meta.variant_index.toList
    else arm_meta.alt_variant_indices).map Int64.ofNat

/-- The body of an arm of an enum match: a literal and a variable are moved to `rax`
on ids of the match. -/
def enum_body (literal_id var_id : Nat) (kind : Option ArmKind) (body : List Command) :
    List Command :=
  match kind with
  | some .Action => body
  | some (.Literal (some value)) => [.Emit literal_id (mov_imm m RAX value)]
  | some (.Var (some var_reg)) => if var_reg ≠ RAX then [.Emit var_id (mov m RAX var_reg)] else []
  | some .App => body
  | _ => []

/-- The payload of the variant: a nested pattern, or the one word behind the
discriminant. -/
def bind_payload (layout : EnumLayout) (arm_meta : MatchArmMeta) (pattern : List Command) :
    List Command :=
  if arm_meta.pattern_binding then pattern
  else if arm_meta.payload_binder.isSome ∧ layout.payload_size > 0 ∧ layout.size > 16 then
    [.Emit (u32 (m.id * 100 + idx * 10 + 2)) (load_rdi m RDX 8)]
  else []

def enum_arm (layout : EnumLayout) (next : String) (arm_meta : MatchArmMeta)
    (arm : Arm (List Command)) : List Command :=
  anchor m (u32 (m.id * 100 + idx * 10 + 8)) (arm_label m idx) ++
  check_alts m idx next (variant_alts arm_meta) ++
  bind_payload m idx layout arm_meta arm.pattern ++
  check_guard m idx next arm_meta arm.guard ++
  enum_body m (u32 (m.id * 100 + idx * 10 + 4)) (u32 (m.id * 100 + idx * 10 + 5)) arm.kind arm.body ++
  [.Emit (u32 (m.id * 100 + idx * 10 + 3)) (jmp m (end_label m))]

def enum_default_arm (arm : Arm (List Command)) : List Command :=
  anchor m (u32 (m.id * 100 + 996)) (default_label m) ++
  enum_body m (u32 (m.id * 100 + idx * 10 + 4)) (u32 (m.id * 100 + idx * 10 + 5)) arm.kind arm.body

end

/-- The loop over the arms. An arm without a row of the side table ends the visit. -/
def enum_arms (m : MatchNode) (layout : EnumLayout) :
    Bool → Nat → List (Arm (List Command)) → List Command
  | default_arm_registered, _, [] => cascade_end m default_arm_registered
  | default_arm_registered, idx, arm :: rest =>
    match arm.arm_meta with
    | none => []
    | some arm_meta =>
      if arm_meta.is_default then
        enum_default_arm m idx arm ++ enum_arms m layout true (idx + 1) rest
      else
        enum_arm m idx layout (next_label m idx rest) arm_meta arm ++
        enum_arms m layout default_arm_registered (idx + 1) rest

/-! ## Jump tables -/

section

variable (m : MatchNode) (idx : Nat)

def jump_table_name : String := "_jt_" ++ toString m.id

/-- `sub`, `cmp`, `ja`, `jmp`, with the load of the discriminant before them. -/
def jump_table_head (layout : EnumLayout) (dispatch_meta : MatchDispatchMeta) : List Command :=
  (if layout.size > 16 then [.Emit (u32 (m.id * 1000 + 0)) (load_rdi m RAX 0)] else []) ++
  (if dispatch_meta.min_arm ≠ 0 then
    [.Emit (u32 (m.id * 1000 + 1)) ⟨.Sub, [.Reg RAX, .Imm64 dispatch_meta.min_arm], none, m.mode⟩]
  else []) ++
  [.Emit (u32 (m.id * 1000 + 2)) (cmp_rax m (Int64.ofNat dispatch_meta.range - 1)),
    .Emit (u32 (m.id * 1000 + 3)) (jcc m .Above (default_label m)),
    .Emit (u32 (m.id * 1000 + 4))
      ⟨.Jmp, [.MemSymIndexed (jump_table_name m) 0 RAX .X8], none, m.mode⟩]

def jump_table_arm (arm : Arm (List Command)) : List Command :=
  anchor m (u32 (m.id * 1000 + 100 + idx * 10)) (arm_label m idx) ++
  enum_body m (u32 (m.id * 1000 + 100 + idx * 10 + 4)) (u32 (m.id * 1000 + 100 + idx * 10 + 3))
    arm.kind arm.body ++
  [.Emit (u32 (m.id * 1000 + 100 + idx * 10 + 5)) (jmp m (end_label m))]

/-- The default arm has a label by its byte offset, and no body but a block. -/
def jump_table_default_arm (arm : Arm (List Command)) : List Command :=
  .RegisterLabel (default_label m) ::
  (match arm.kind with
    | some .Action => arm.body
    | _ => [])

def jump_table_end (default_arm_registered : Bool) : List Command :=
  (if default_arm_registered then []
    else anchor m (u32 (m.id * 1000 + 998)) (default_label m)) ++
  anchor m (u32 (m.id * 1000 + 999)) (end_label m)

end

def jump_table_arms (m : MatchNode) : Bool → Nat → List (Arm (List Command)) → List Command
  | default_arm_registered, _, [] => jump_table_end m default_arm_registered
  | default_arm_registered, idx, arm :: rest =>
    match arm.arm_meta with
    | none => []
    | some arm_meta =>
      if arm_meta.is_default then
        jump_table_default_arm m arm ++ jump_table_arms m true (idx + 1) rest
      else jump_table_arm m idx arm ++ jump_table_arms m default_arm_registered (idx + 1) rest

/-- The way of an enum match, by its dispatch row. -/
def MatchDispatchMeta.is_jump_table (d : MatchDispatchMeta) : Bool := d.jump_table && d.density_ok

def visit_match_jump_table (m : MatchNode) (dispatch_meta : MatchDispatchMeta)
    (arms : List (Arm (List Command))) : List Command :=
  match m.scrutinee, m.layout with
  | some scrutinee, some layout =>
    if arms.isEmpty ∨ !scrutinee.is_var then []
    else
      emit_scrutinee_load m layout scrutinee ++ jump_table_head m layout dispatch_meta ++
      jump_table_arms m false 0 arms
  | _, _ => []

def visit_enum_match (m : MatchNode) (arms : List (Arm (List Command))) : List Command :=
  match m.scrutinee, m.layout with
  | some scrutinee, some layout =>
    if arms.isEmpty ∨ !scrutinee.is_var then []
    else
      emit_scrutinee_load m layout scrutinee ++
      (if layout.size > 16 then [.Emit (u32 (m.id * 100 + 900)) (load_rdi m RAX 0)] else []) ++
      enum_arms m layout false 0 arms
  | _, _ => []

/-- The match node decides between the three. Where it reports an error it emits
nothing more. -/
def visit_match (m : MatchNode) (arms : List (Arm (List Command))) : List Command :=
  if m.int_match then visit_int_match m arms
  else
    match m.dispatch.filter (·.is_jump_table) with
    | some dispatch_meta => visit_match_jump_table m dispatch_meta arms
    | none => visit_enum_match m arms

end paideia_as_elaborator.emit_walker
