-- Operands of unsafe-block instructions: registers, literals, bracketed
-- addresses, symbols, labels and dereferences (`unsafe_walker/`).
import PaideiaAs.Encoder.Instruction
import PaideiaAs.Lexer.ScanNumber
import Mathlib.Algebra.Ring.Int.Defs

namespace paideia_as_elaborator

open paideia_as_runtime

/-! ## The syntax tree -/

inductive InfixOp where
  | Add | Sub | Mul | Div | Rem | And | Or | Xor
  | Eq | Ne | Lt | Gt | Le | Ge | Shl | Shr
  deriving DecidableEq

/-- The expressions that an operand is built from. A node is given with the
source text it spans where the elaborator reads that text. -/
inductive Expr where
  | Ident (name : String)
  | Path (segments : List String)
  | Literal (text : List Char)
  | Infix (op : String) (lhs rhs : Expr)
  | FieldAccess (receiver field : Expr)
  | Deref (expr : Expr)
  | OperandRegister (reg : Expr)
  | OperandImmediate (expr : Expr)
  | OperandMemoryRef (segment : Option SegPrefix) (addr : Expr)
  | Other

/-- The kind of error. The span that the source attaches is left out. -/
inductive OperandError where
  | UnknownRegister (name : String)
  | MalformedOperand
  | UnresolvedFieldOffset
  deriving DecidableEq

def get_infix_op_name : String → Option InfixOp
  | "+" => some .Add
  | "-" => some .Sub
  | "*" => some .Mul
  | "/" => some .Div
  | "%" => some .Rem
  | "&" => some .And
  | "|" => some .Or
  | "^" => some .Xor
  | "==" => some .Eq
  | "!=" => some .Ne
  | "<" => some .Lt
  | ">" => some .Gt
  | "<=" => some .Le
  | ">=" => some .Ge
  | "<<" => some .Shl
  | ">>" => some .Shr
  | _ => none

/-! ## Registers -/

def RAX : RegId := ⟨0⟩

/-- The names of each register id. Sub-registers share the id of their 64-bit
register, the high bytes that of the low byte with the same code, and `rip` is
the id 255. -/
def register_names : List (RegId × List String) :=
  [(⟨0⟩, ["rax", "eax", "ax", "al"]), (⟨1⟩, ["rcx", "ecx", "cx", "cl"]),
    (⟨2⟩, ["rdx", "edx", "dx", "dl"]), (⟨3⟩, ["rbx", "ebx", "bx", "bl"]),
    (⟨4⟩, ["rsp", "esp", "sp", "ah"]), (⟨5⟩, ["rbp", "ebp", "bp", "ch"]),
    (⟨6⟩, ["rsi", "esi", "si", "dh"]), (⟨7⟩, ["rdi", "edi", "di", "bh"]),
    (⟨8⟩, ["r8", "r8d", "r8b"]), (⟨9⟩, ["r9", "r9d", "r9b"]),
    (⟨10⟩, ["r10", "r10d", "r10b"]), (⟨11⟩, ["r11", "r11d", "r11b"]),
    (⟨12⟩, ["r12", "r12d", "r12b"]), (⟨13⟩, ["r13", "r13d", "r13b"]),
    (⟨14⟩, ["r14", "r14d", "r14b"]), (⟨15⟩, ["r15", "r15d", "r15b"]),
    (⟨16⟩, ["cr0"]), (⟨17⟩, ["cr1"]), (⟨18⟩, ["cr2"]), (⟨19⟩, ["cr3"]), (⟨20⟩, ["cr4"]),
    (⟨21⟩, ["cr5"]), (⟨22⟩, ["cr6"]), (⟨23⟩, ["cr7"]), (⟨24⟩, ["cr8"]),
    (⟨25⟩, ["dr0"]), (⟨26⟩, ["dr1"]), (⟨27⟩, ["dr2"]), (⟨28⟩, ["dr3"]), (⟨29⟩, ["dr4"]),
    (⟨30⟩, ["dr5"]), (⟨31⟩, ["dr6"]), (⟨32⟩, ["dr7"]),
    (⟨33⟩, ["spl"]), (⟨34⟩, ["bpl"]), (⟨35⟩, ["sil"]), (⟨36⟩, ["dil"]),
    (⟨37⟩, ["ymm0"]), (⟨38⟩, ["ymm1"]), (⟨39⟩, ["ymm2"]), (⟨40⟩, ["ymm3"]), (⟨41⟩, ["ymm4"]),
    (⟨42⟩, ["ymm5"]), (⟨43⟩, ["ymm6"]), (⟨44⟩, ["ymm7"]), (⟨45⟩, ["ymm8"]), (⟨46⟩, ["ymm9"]),
    (⟨47⟩, ["ymm10"]), (⟨48⟩, ["ymm11"]), (⟨49⟩, ["ymm12"]), (⟨50⟩, ["ymm13"]),
    (⟨51⟩, ["ymm14"]), (⟨52⟩, ["ymm15"]),
    (⟨53⟩, ["xmm0"]), (⟨54⟩, ["xmm1"]), (⟨55⟩, ["xmm2"]), (⟨56⟩, ["xmm3"]), (⟨57⟩, ["xmm4"]),
    (⟨58⟩, ["xmm5"]), (⟨59⟩, ["xmm6"]), (⟨60⟩, ["xmm7"]), (⟨61⟩, ["xmm8"]), (⟨62⟩, ["xmm9"]),
    (⟨63⟩, ["xmm10"]), (⟨64⟩, ["xmm11"]), (⟨65⟩, ["xmm12"]), (⟨66⟩, ["xmm13"]),
    (⟨67⟩, ["xmm14"]), (⟨68⟩, ["xmm15"]), (⟨0xFF⟩, ["rip"])]

def register_name_to_regid (name : String) : Option RegId :=
  (register_names.find? fun r => r.2.contains name).map (·.1)

/-- The width that the spelling of a general register implies. -/
def register_name_width (name : String) : Option IntWidth :=
  if ["rax", "rcx", "rdx", "rbx", "rsp", "rbp", "rsi", "rdi", "r8", "r9", "r10", "r11", "r12",
      "r13", "r14", "r15"].contains name then some .W64
  else if ["eax", "ecx", "edx", "ebx", "esp", "ebp", "esi", "edi", "r8d", "r9d", "r10d", "r11d",
      "r12d", "r13d", "r14d", "r15d"].contains name then some .W32
  else if ["ax", "cx", "dx", "bx", "sp", "bp", "si", "di"].contains name then some .W16
  else if ["al", "cl", "dl", "bl", "ah", "ch", "dh", "bh", "spl", "bpl", "sil", "dil", "r8b", "r9b",
      "r10b", "r11b", "r12b", "r13b", "r14b", "r15b"].contains name then some .W8
  else none

/-- The text that an identifier or a path spans, also as a whole operand. -/
def get_register_name : Expr → Option String
  | .Ident name => some name
  | .Path segments => some ("::".intercalate segments)
  | .OperandRegister reg => get_register_name reg
  | .OperandImmediate expr => get_register_name expr
  | _ => none

/-- The source returns `Operand::Reg`; every caller takes the id out again. -/
def parse_register_from_ident : Expr → Except OperandError RegId
  | .Ident name => regid name
  | .Path [name] => regid name
  | _ => .error .MalformedOperand
where
  regid (name : String) : Except OperandError RegId :=
    match register_name_to_regid name with
    | some r => .ok r
    | none => .error (.UnknownRegister name)

def is_rip_identifier : Expr → Bool
  | .Ident name => name == "rip"
  | .Path [name] => name == "rip"
  | _ => false

/-! ## Integer literals -/

/-- A literal with a base mark. -/
def prefixed (lower upper : Char) (radix : Nat) : List Char → Option Int64
  | '0' :: c :: rest =>
    if c = lower ∨ c = upper then (Radix.unsigned 64 radix rest).map fun n => Int64.ofNat n else none
  | _ => none

/-- What stands between single quotes, after an optional `b`. -/
def quoted (text : List Char) : Option (List Char) :=
  let quote := Char.ofNat 39
  let text := if text.head? = some 'b' then text.tail else text
  if 2 ≤ text.length ∧ text.head? = some quote ∧ text.getLast? = some quote then
    some text.tail.dropLast
  else none

def parse_char_or_byte_literal (text : List Char) : Option Int64 := do
  let backslash := Char.ofNat 92
  match ← quoted text with
  | [] => none
  | [c] => if c = backslash then none else some (Int64.ofNat c.toNat)
  | [e, c] =>
    if e ≠ backslash then none
    else if c = 'n' then some 0x0A
    else if c = 'r' then some 0x0D
    else if c = 't' then some 0x09
    else if c = backslash then some 0x5C
    else if c = Char.ofNat 39 then some 0x27
    else if c = Char.ofNat 34 then some 0x22
    else if c = '0' then some 0
    else none
  | [e, x, a, b] =>
    if e = backslash ∧ x = 'x' then (Radix.unsigned 8 16 [a, b]).map fun n => Int64.ofNat n else none
  | _ => none

/-- Decimal, then `0x`, `0o`, `0b`, then unsigned decimal, then a character. -/
def extract_integer_from_span (text : List Char) : Option Int64 :=
  (Radix.signed 64 text).map Int64.ofInt <|>
    prefixed 'x' 'X' 16 text <|>
    prefixed 'o' 'O' 8 text <|>
    prefixed 'b' 'B' 2 text <|>
    (Radix.unsigned 64 10 text).map (fun n => Int64.ofNat n) <|>
    parse_char_or_byte_literal text

/-- The text of a node, as far as an integer could stand in it. -/
def Expr.digits : Expr → Option Int64
  | .Literal text => extract_integer_from_span text
  | .Ident name => extract_integer_from_span name.toList
  | _ => none

/-! ## Addresses -/

/-- Base, index, scale and displacement. -/
abbrev Sib := RegId × Option RegId × Scale × Int32

def extract_index_scale (left right : Expr) : Except OperandError (RegId × Nat) := do
  let idx_reg ← parse_register_from_ident left
  let scale_factor := ((right.digits.getD 1).toUInt64.toUInt32).toNat
  return (idx_reg, scale_factor)

/-- The components of the left part are taken over and merged with the right
part. The arithmetic wraps, as it does in a release build. -/
def combine_additive_terms (left : Sib) (right : Expr) (is_sub : Bool) : Except OperandError Sib :=
  let (left_base, left_index, left_scale, left_disp) := left
  match right with
  | .Ident _ | .Path _ => do
    let reg ← parse_register_from_ident right
    if left_base = RAX ∧ left_index.isNone then
      return (reg, none, .X1, if is_sub then -left_disp else left_disp)
    else if left_index.isNone then
      return (left_base, some reg, left_scale, if is_sub then -left_disp else left_disp)
    else throw .MalformedOperand
  | .Literal text =>
    let right_disp := ((extract_integer_from_span text).getD 0).toInt32
    .ok (left_base, left_index, left_scale,
      if is_sub then left_disp - right_disp else left_disp + right_disp)
  | .Infix op mul_lhs mul_rhs =>
    if get_infix_op_name op = some .Mul then do
      let (idx, scale_factor) ← extract_index_scale mul_lhs mul_rhs
      match Scale.from_factor scale_factor with
      | some scale => return (left_base, some idx, scale, left_disp)
      | none => throw .MalformedOperand
    else .error .MalformedOperand
  | _ => .error .MalformedOperand

def extract_sib_components : Expr → Except OperandError Sib
  | .Ident name => do
    let base ← parse_register_from_ident (.Ident name)
    return (base, none, .X1, 0)
  | .Path segments => do
    let base ← parse_register_from_ident (.Path segments)
    return (base, none, .X1, 0)
  | .Infix op lhs rhs =>
    match get_infix_op_name op with
    | some .Add => do combine_additive_terms (← extract_sib_components lhs) rhs false
    | some .Sub => do combine_additive_terms (← extract_sib_components lhs) rhs true
    | _ => .error .MalformedOperand
  | _ => .error .MalformedOperand

def parse_address_to_sib (addr : Expr) : Except OperandError Operand := do
  let (base, index, scale, disp) ← extract_sib_components addr
  return .MemSib base index scale disp

/-! ## Symbols -/

def symbol_name (name : String) : Option String :=
  if (register_name_to_regid name).isSome || name == "rip" then none else some name

/-- A path stands for its last segment. -/
def try_extract_symbol_name : Expr → Option String
  | .Ident name => symbol_name name
  | .Path segments => segments.getLast?.bind symbol_name
  | _ => none

structure Acc where
  name : Option String
  addend : Int32
  rip_seen : Bool

/-- The new accumulator, or `none` where the source returns `false`. -/
def walk : Expr → Int → Acc → Option Acc
  | .Infix op lhs rhs, sign, acc =>
    match get_infix_op_name op with
    | some .Add => (walk lhs sign acc).bind (walk rhs sign)
    | some .Sub => (walk lhs sign acc).bind (walk rhs (-sign))
    | _ => none
  | .Literal text, sign, acc => do
    let v ← extract_integer_from_span text
    let signed := v.toInt * sign
    if -(2 ^ 31) ≤ signed ∧ signed < 2 ^ 31 then
      let sum := acc.addend.toInt + signed
      if -(2 ^ 31) ≤ sum ∧ sum < 2 ^ 31 then some { acc with addend := Int32.ofInt sum } else none
    else none
  | .Ident name, _, acc => place (.Ident name) acc
  | .Path segments, _, acc => place (.Path segments) acc
  | _, _, _ => none
where
  place (e : Expr) (acc : Acc) : Option Acc :=
    if is_rip_identifier e then
      if acc.rip_seen then none else some { acc with rip_seen := true }
    else
      match try_extract_symbol_name e with
      | some name => if acc.name.isSome then none else some { acc with name := some name }
      | none => none

def try_extract_symbol_sum (addr : Expr) : Option (String × Int32) := do
  let acc ← walk addr 1 ⟨none, 0, false⟩
  acc.name.map fun n => (n, acc.addend)

def try_parse_symbol_memory (addr : Expr) : Except OperandError Operand :=
  match addr with
  | .Ident _ | .Path _ =>
    match try_extract_symbol_name addr with
    | some name => .ok (.MemRipRelSym name 0)
    | none => .error .MalformedOperand
  | .Infix _ _ _ =>
    match try_extract_symbol_sum addr with
    | some (name, addend) => .ok (.MemRipRelSym name addend)
    | none => .error .MalformedOperand
  | _ => .error .MalformedOperand

/-! ## Operands -/

def parse_memory_from_memref (segment : Option SegPrefix) (addr : Expr) :
    Except OperandError Operand := do
  let inner ← match try_parse_symbol_memory addr with
    | .ok symbol => if segment.isSome then throw .MalformedOperand else pure symbol
    | .error _ => parse_address_to_sib addr
  match segment with
  | some seg => return .MemSeg seg inner
  | none => return inner

/-- `*p` and `*p.field`. The offsets are those of the first record type. -/
def parse_deref_operand (layout : Option (List Nat)) : Expr → Except OperandError Operand
  | .FieldAccess receiver field => do
    let base ← parse_register_from_ident receiver
    match get_register_name field with
    | none => throw .MalformedOperand
    | some name =>
      match layout with
      | none => throw .UnresolvedFieldOffset
      | some offsets =>
        let numbered := (List.range offsets.length).find? fun idx => name == s!"field{idx}"
        let named := match name with
          | "kind" => some 0
          | "rights" => some 1
          | "badge" => some 2
          | _ => none
        match (numbered <|> named).bind fun idx => offsets[idx]? with
        | some offset => return .MemSib base none .X1 (Int32.ofNat offset)
        | none => throw .UnresolvedFieldOffset
  | p => do
    let base ← parse_register_from_ident p
    return .MemSib base none .X1 0

def supports_symbol_ref : Mnemonic → Bool
  | .Call | .Jmp | .Jcc _ | .Mov | .Lea | .FarJmp | .Lgdt | .Lidt => true
  | _ => false

def supports_label_ref : Mnemonic → Bool
  | .Jcc _ | .Jmp | .Call => true
  | _ => false

/-- What an operand is read against: record offsets, local bindings and the
labels of the block. -/
structure Scope where
  layout : Option (List Nat)
  bindings : String → Bool
  labels : List String

/-- A name that is no register: binding, then label, then symbol. -/
def resolve_name (scope : Scope) (mnemonic : Mnemonic) (name : Option String) (node : Expr) :
    Except OperandError Operand :=
  match name.bind fun n =>
      if scope.bindings n then some (.Var n)
      else if supports_label_ref mnemonic && scope.labels.contains n then some (.LabelRef n 0)
      else none with
  | some operand => .ok operand
  | none =>
    if supports_symbol_ref mnemonic then
      match try_extract_symbol_name node with
      | some n => .ok (.SymbolRef n 0)
      | none => .error .MalformedOperand
    else .error .MalformedOperand

def parse_operand_from_ast (scope : Scope) (mnemonic : Mnemonic) : Expr → Except OperandError Operand
  | .Ident name =>
    match parse_register_from_ident (.Ident name) with
    | .ok r => .ok (.Reg r)
    | .error _ => resolve_name scope mnemonic (some name) (.Ident name)
  | .OperandRegister reg =>
    match parse_register_from_ident reg with
    | .ok r => .ok (.Reg r)
    | .error _ => resolve_name scope mnemonic (get_register_name reg) reg
  | .OperandImmediate expr => parse_operand_from_ast scope mnemonic expr
  | .Path segments =>
    match parse_register_from_ident (.Path segments) with
    | .ok r => .ok (.Reg r)
    | .error _ =>
      resolve_name scope mnemonic (try_extract_symbol_name (.Path segments)) (.Path segments)
  | .Literal text => .ok (.Imm64 ((extract_integer_from_span text).getD 0))
  | .OperandMemoryRef segment addr => parse_memory_from_memref segment addr
  | .Deref expr => parse_deref_operand scope.layout expr
  | _ => .error .MalformedOperand

end paideia_as_elaborator
