-- The machine that runs the commands of the match emitters: registers, two
-- flags and the module objects, with the labels that the commands bind.
import PaideiaAs.Elaborator.EmitMatch
import PaideiaAs.Lib.Flow

namespace paideia_as_elaborator.emit_walker

open paideia_as_runtime Flow

/-! ## States -/

/-- Registers, the zero and the carry flag, the words of the module objects, and
whatever else other instructions work on. -/
structure State (σ : Type) where
  regs : RegId → Int64
  zf : Bool
  cf : Bool
  objects : String → Int64
  rest : σ

/-- What the match emitters leave open: the effect of the instructions that they do
not emit, the conditions that they do not test, and the slots of jump tables. -/
structure World (σ : Type) where
  inst : Instruction → State σ → State σ
  cond : Cond → State σ → Bool
  table : String → Nat → Option String

section

variable {σ : Type}

def State.set (s : State σ) (r : RegId) (v : Int64) : State σ :=
  { s with regs := Function.update s.regs r v }

/-- The flags of `a - b`. -/
def State.compare (s : State σ) (a b : Int64) : State σ :=
  { s with zf := a == b, cf := decide (a.toUInt64 < b.toUInt64) }

@[simp] theorem State.set_regs (s : State σ) (r : RegId) (v : Int64) :
    (s.set r v).regs = Function.update s.regs r v := rfl

@[simp] theorem State.compare_regs (s : State σ) (a b : Int64) : (s.compare a b).regs = s.regs := rfl

def World.holds (w : World σ) (s : State σ) : Cond → Bool
  | .Eq | .Zero => s.zf
  | .Ne | .NonZero => !s.zf
  | .Above => !(s.cf || s.zf)
  | c => w.cond c s

def World.act (w : World σ) (i : Instruction) (s : State σ) : Effect String (State σ) :=
  match i.mnemonic, i.operands with
  | .Nop, [] => .next s
  | .Mov, [.Reg dst, .Reg src] => .next (s.set dst (s.regs src))
  | .Mov, [.Reg dst, .Imm64 imm] => .next (s.set dst imm)
  | .Mov, [.Reg dst, .MemRipRelSym name 0] => .next (s.set dst (s.objects name))
  | .Sub, [.Reg dst, .Imm64 imm] =>
    .next ((s.compare (s.regs dst) imm).set dst (s.regs dst - imm))
  | .Cmp, [.Reg r, .Imm64 imm] => .next (s.compare (s.regs r) imm)
  | .Test, [.Reg a, .Reg b] => .next (s.compare (s.regs a &&& s.regs b) 0)
  | .Jcc c, [.LabelRef label 0] => if w.holds s c then .jump label s else .next s
  | .Jmp, [.LabelRef label 0] => .jump label s
  | .Jmp, [.MemSymIndexed name 0 index .X8] =>
    match w.table name (s.regs index).toUInt64.toNat with
    | some label => .jump label s
    | none => .stuck
  | _, _ => .next (w.inst i s)

/-- The machine of a program of commands. A label stands where it is bound, in the
order of emission. -/
def World.machine (w : World σ) : Machine Command String (State σ) where
  label
    | .InsertLabel name _ => some name
    | .RegisterLabel name => some name
    | _ => none
  act
    | .Emit _ i => w.act i
    | .Fresh i => w.act i
    | _ => .next

end

/-! ## The labels of a match -/

inductive Mark where
  | default
  | finish
  | arm (idx : Nat)
  | body (idx : Nat)
  deriving DecidableEq

def Mark.label (m : MatchNode) : Mark → String
  | .default => default_label m
  | .finish => end_label m
  | .arm idx => arm_label m idx
  | .body idx => body_label m idx

theorem arm_ne_body (m : MatchNode) (i j : Nat) : arm_label m i ≠ body_label m j := by
  intro h
  have hlist : Nat.toDigits 10 i = Nat.toDigits 10 j ++ ['_', 'b', 'o', 'd', 'y'] := by
    have := congrArg String.toList h
    simpa [arm_label, body_label] using this
  have hmem : '_' ∈ Nat.toDigits 10 i := by simp [hlist]
  have := Nat.isDigit_of_mem_toDigits (by decide) (by decide) hmem
  exact absurd this (by decide)

/-- The letter after `match_` tells the kinds of labels apart. -/
def Mark.letter : Mark → Char
  | .default => 'd'
  | .finish => 'e'
  | .arm _ | .body _ => 'a'

theorem Mark.label_letter (m : MatchNode) (k : Mark) : (k.label m).toList[6]? = some k.letter := by
  cases k <;> simp [Mark.label, Mark.letter, default_label, end_label, arm_label, body_label]

theorem Mark.label_inj {m : MatchNode} {a b : Mark} (h : a.label m = b.label m) : a = b := by
  have hletter : a.letter = b.letter := by
    have := congrArg (fun s : String => s.toList[6]?) h
    simpa [Mark.label_letter] using this
  cases a <;> cases b <;> simp [Mark.letter] at hletter <;> try rfl
  · rename_i i j
    have : toString i = toString j := by simpa [Mark.label, arm_label] using h
    rw [Radix.toString_inj this]
  · exact absurd h (arm_ne_body m _ _)
  · exact absurd h.symm (arm_ne_body m _ _)
  · rename_i i j
    have : toString i = toString j := by simpa [Mark.label, body_label] using h
    rw [Radix.toString_inj this]

/-! ## The single instructions of the emitters -/

section

variable {σ : Type} {w : World σ} {m : MatchNode} {P rest : List Command} {s : State σ} {id : Nat}
  {label : String} {t : List Command}

theorem runs_anchor : w.machine.Runs P (anchor m id label ++ rest, s) (rest, s) :=
  .trans (.next rfl) (.next rfl)

theorem runs_cmp (imm : Int64) :
    w.machine.Runs P (.Emit id (cmp_rax m imm) :: rest, s) (rest, s.compare (s.regs RAX) imm) :=
  .next rfl

theorem runs_jmp (ht : w.machine.target label P = some t) :
    w.machine.Runs P (.Emit id (jmp m label) :: rest, s) (t, s) :=
  .jump rfl ht

/-- A conditional jump that is taken. -/
theorem runs_jcc {c : Cond} (hc : w.holds s c = true) (ht : w.machine.target label P = some t) :
    w.machine.Runs P (.Emit id (jcc m c label) :: rest, s) (t, s) := by
  refine .jump ?_ ht
  show (if w.holds s c then Effect.jump label s else .next s) = _
  rw [if_pos hc]

/-- A conditional jump that is not taken. -/
theorem runs_jcc_not {c : Cond} (hc : w.holds s c = false) :
    w.machine.Runs P (.Emit id (jcc m c label) :: rest, s) (rest, s) := by
  refine .next ?_
  show (if w.holds s c then Effect.jump label s else .next s) = _
  rw [if_neg (by simp [hc])]

theorem labels_anchor : w.machine.labels (anchor m id label) = [label] := rfl

end

end paideia_as_elaborator.emit_walker
