-- Branches to labels after `resolve_symbols`: where the encoded jump goes,
-- against where the instruction of the label stands.
import PaideiaAs.Runtime.Resolve
import PaideiaAs.Encoder.Sites

namespace paideia_as_runtime

open paideia_as_encoder X86

/-! ## The encoded program -/

/-- The bytes of each instruction, in order. -/
def Encoded (instructions : List Instruction) (code : List (List UInt8)) : Prop :=
  List.Forall₂ (fun ins bs => ∃ out, encode_instruction ins = ⟨bs, .ok out⟩) instructions code

/-- Where instruction `k` starts in the buffer. -/
def place (code : List (List UInt8)) (k : Nat) : Nat := (code.take k).flatten.length

/-- A `jmp` or `jcc` whose operand is a label. -/
def Instruction.labelBranch (ins : Instruction) : Option (String × Int32) :=
  match ins.mnemonic, ins.operands with
  | .Jmp, [.LabelRef name addend] => some (name, addend)
  | .Jcc _, [.LabelRef name addend] => some (name, addend)
  | _, _ => none

/-- The processor at instruction `i` of the buffer, which stands at `base`, jumps
to the first byte of instruction `l`. -/
def Reaches (m : Mode) (base : Int) (code : List (List UInt8)) (i l : Nat) : Prop :=
  ∃ insn rest target, decode m (code.flatten.drop (place code i)) = some (insn, rest) ∧
    insn.jumpsTo (base + place code i) = some target ∧
    (target - (base + place code l)) % m.space = 0

section

variable {code : List (List UInt8)} {bs : List UInt8} {i : Nat}

theorem drop_place (hi : code[i]? = some bs) :
    code.flatten.drop (place code i) = bs ++ (code.drop (i + 1)).flatten := by
  obtain ⟨hlt, hget⟩ := List.getElem?_eq_some_iff.mp hi
  have hsplit : code.flatten = (code.take i).flatten ++ (code.drop i).flatten := by
    rw [← List.flatten_append, List.take_append_drop]
  rw [hsplit, place, List.drop_left', List.drop_eq_getElem_cons hlt, hget, List.flatten_cons]
  rfl

theorem place_succ (hi : code[i]? = some bs) : place code (i + 1) = place code i + bs.length := by
  simp [place, List.take_add_one, hi]

theorem encoded_get {instructions : List Instruction} {ins : Instruction}
    (henc : Encoded instructions code) (hi : instructions[i]? = some ins) :
    ∃ bs out, code[i]? = some bs ∧ encode_instruction ins = ⟨bs, .ok out⟩ := by
  obtain ⟨hlt, hins⟩ := List.getElem?_eq_some_iff.mp hi
  have hlt' : i < code.length := henc.length_eq ▸ hlt
  obtain ⟨out, hout⟩ := henc.get hlt hlt'
  refine ⟨code[i], out, List.getElem?_eq_getElem hlt', ?_⟩
  simpa [hins] using hout

/-- A branch with a number is a jump by that number, cut to 32 bits. -/
theorem encode_branch {ins : Instruction} {rel : Int64} {out : EncodeOutput}
    (hmn : ins.mnemonic = .Jmp ∨ ∃ cond, ins.mnemonic = .Jcc cond)
    (hops : ins.operands = [.Imm64 rel]) (h : encode_instruction ins = ⟨bs, .ok out⟩) (m : Mode) :
    ∃ insn : Insn, (∀ rest, decode m (bs ++ rest) = some (insn, rest)) ∧
      ∀ start, insn.jumpsTo start = some (start + bs.length + rel.toInt.bmod 4294967296) := by
  have hnone : find_mem_seg ins.operands = none := by simp [hops, find_mem_seg]
  rw [encode_instruction_of_none hnone] at h
  have hfour : Bytes.signed (low 4 rel) = rel.toInt.bmod 4294967296 := Bytes.signed_sle 4 rel.toInt
  rcases hmn with hmn | ⟨cond, hmn⟩
  · simp only [encode_instruction_impl, hmn, encode_jmp, hops, plain_ok_iff] at h
    rw [Emit.push_ok_iff.mp h.1, ← hfour]
    exact @decode_jump m .one 0xE9 (low 4 rel) (by rw [length_low]; cases m <;> decide) (by decide)
  · simp only [encode_instruction_impl, hmn, encode_jcc, hops, plain_ok_iff] at h
    obtain ⟨h, _⟩ := h
    split at h
    case isTrue h8 =>
      have hrange : -128 ≤ rel.toInt ∧ rel.toInt ≤ 127 := by
        simpa [can_use_rel8] using h8
      have hone : Bytes.signed (low 1 rel) = rel.toInt.bmod 4294967296 := by
        rw [signed_low_one h8, Int.bmod_eq_of_le (by omega) (by omega)]
      rw [Emit.push_ok_iff.mp h, ← hone]
      exact @decode_jump m .one (0x70 + ((cond_from cond).code - 0x80)) (low 1 rel)
        (by rw [length_low]; cases m <;> cases cond_from cond <;> decide)
        (by cases cond_from cond <;> decide)
    case isFalse =>
      rw [Emit.push_ok_iff.mp h, ← hfour]
      exact @decode_jump m .two (cond_from cond).code (low 4 rel)
        (by rw [length_low]; cases m <;> cases cond_from cond <;> decide)
        (by cases cond_from cond <;> decide)

end

/-! ## Resolved branches -/

/-- Every branch to a label reaches the instruction that the label names. -/
def BranchesReach (base : Int) (instructions : List Instruction) (labels : LabelMap)
    (code : List (List UInt8)) : Prop :=
  ∀ i ins name addend l, instructions[i]? = some ins → ins.labelBranch = some (name, addend) →
    labels name = some l → Reaches (processorMode ins.mode) base code i l

/-- For every branch to a label: the bytes from the end of the branch to the label
are as many as the estimates before the label and the addend make together, cut
to 32 bits. -/
def Balanced (instructions : List Instruction) (labels : LabelMap) (code : List (List UInt8)) : Prop :=
  ∀ i ins name addend l, instructions[i]? = some ins → ins.labelBranch = some (name, addend) →
    labels name = some l →
    (place code (i + 1) + ((estimated_offset instructions l : Int) + addend.toInt).bmod 4294967296 -
      place code l) % (processorMode ins.mode).space = 0

section

variable {instructions : List Instruction} {symbols : SymbolTable} {labels : LabelMap}
  {code : List (List UInt8)} {ins : Instruction} {name : String} {addend : Int32}

theorem labelBranch_cases (h : ins.labelBranch = some (name, addend)) :
    (ins.mnemonic = .Jmp ∨ ∃ cond, ins.mnemonic = .Jcc cond) ∧
      ins.operands = [.LabelRef name addend] := by
  unfold Instruction.labelBranch at h
  split at h
  · rename_i hmn hops
    obtain ⟨rfl, rfl⟩ : _ = name ∧ _ = addend := by simpa using h
    exact ⟨.inl hmn, hops⟩
  · rename_i hmn hops
    obtain ⟨rfl, rfl⟩ : _ = name ∧ _ = addend := by simpa using h
    exact ⟨.inr ⟨_, hmn⟩, hops⟩
  · cases h

theorem label_number (instructions : List Instruction) (l : Nat) (addend : Int32) :
    (Int64.ofNat (estimated_offset instructions l) + addend.toInt64).toInt =
      estimated_offset instructions l + addend.toInt := by
  have ho : estimated_offset instructions l ≤ 4294967295 := Nat.min_le_right ..
  have hlo := addend.le_toInt
  have hhi := addend.toInt_lt
  have hoff : (Int64.ofNat (estimated_offset instructions l)).toInt = estimated_offset instructions l := by
    rw [Int64.toInt_ofNat_of_lt]
    omega
  rw [Int64.toInt_add, hoff, Int32.toInt_toInt64, Int.bmod_eq_of_le (by omega) (by omega)]

theorem resolved_branch {i l : Nat} (hok : (resolve_symbols instructions symbols labels).2 = .ok ())
    (henc : Encoded (resolve_symbols instructions symbols labels).1 code)
    (hi : instructions[i]? = some ins) (hb : ins.labelBranch = some (name, addend))
    (hl : labels name = some l) (m : Mode) :
    ∃ bs insn, code[i]? = some bs ∧ (∀ rest, decode m (bs ++ rest) = some (insn, rest)) ∧
      ∀ start, insn.jumpsTo start = some (start + bs.length +
        ((estimated_offset instructions l : Int) + addend.toInt).bmod 4294967296) := by
  obtain ⟨hmn, hops⟩ := labelBranch_cases hb
  obtain ⟨hget, hres⟩ := resolve_from_get hok hi
  rw [hops] at hget hres
  obtain ⟨l', o, hl', ho, hnum⟩ := resolve_label hres
  obtain rfl : l = l' := Option.some.inj (hl.symm.trans hl')
  obtain ⟨_, rfl⟩ := layout_zero_get ho
  obtain ⟨bs, out, hbs, hout⟩ := encoded_get henc hget
  have hmn' : ∀ operands, { ins with operands }.mnemonic = ins.mnemonic := fun _ => rfl
  obtain ⟨insn, hdec, hjump⟩ := encode_branch (hmn' _ ▸ hmn) hnum hout m
  refine ⟨bs, insn, hbs, hdec, ?_⟩
  intro start
  rw [hjump, label_number]

/-- A resolved branch reaches its label when the sizes balance. -/
theorem reaches_iff {i l : Nat} (base : Int)
    (hok : (resolve_symbols instructions symbols labels).2 = .ok ())
    (henc : Encoded (resolve_symbols instructions symbols labels).1 code)
    (hi : instructions[i]? = some ins) (hb : ins.labelBranch = some (name, addend))
    (hl : labels name = some l) (m : Mode) :
    Reaches m base code i l ↔
      (place code (i + 1) + ((estimated_offset instructions l : Int) + addend.toInt).bmod 4294967296 -
        place code l) % m.space = 0 := by
  obtain ⟨bs, insn, hbs, hdec, hjump⟩ := resolved_branch hok henc hi hb hl m
  have hsum : ∀ d : Int, base + place code i + bs.length + d - (base + place code l) =
      place code (i + 1) + d - place code l := by
    intro d
    rw [place_succ hbs]
    omega
  unfold Reaches
  rw [drop_place hbs, hdec]
  constructor
  · rintro ⟨insn', rest, target, hinsn, htarget, hzero⟩
    obtain ⟨rfl, rfl⟩ : insn = insn' ∧ _ = rest := by simpa using hinsn
    rw [hjump] at htarget
    obtain rfl := Option.some.inj htarget
    rwa [hsum] at hzero
  · intro hzero
    exact ⟨insn, _, _, rfl, hjump _, by rwa [hsum]⟩

end

/-- All branches of a resolved program reach their labels when the sizes balance. -/
theorem branches_reach_iff (instructions : List Instruction) (symbols : SymbolTable)
    (labels : LabelMap) (base : Int) (code : List (List UInt8))
    (hok : (resolve_symbols instructions symbols labels).2 = .ok ())
    (henc : Encoded (resolve_symbols instructions symbols labels).1 code) :
    BranchesReach base instructions labels code ↔ Balanced instructions labels code := by
  constructor
  · intro h i ins name addend l hi hb hl
    exact (reaches_iff base hok henc hi hb hl _).mp (h i ins name addend l hi hb hl)
  · intro h i ins name addend l hi hb hl
    exact (reaches_iff base hok henc hi hb hl _).mpr (h i ins name addend l hi hb hl)

/-- A jump to itself: the addend takes the five bytes of the jump back. -/
def loopHere : List Instruction := [⟨.Jmp, [.LabelRef "top" (-5)], none, .Mode64⟩]

def topLabel : LabelMap := fun name => if name = "top" then some 0 else none

theorem loop_here_reaches :
    BranchesReach 0x1000 loopHere topLabel [[0xE9, 0xFB, 0xFF, 0xFF, 0xFF] ] := by
  have henc : Encoded (resolve_symbols loopHere (fun _ => none) topLabel).1
      [[0xE9, 0xFB, 0xFF, 0xFF, 0xFF] ] := .cons ⟨.new, rfl⟩ .nil
  refine (branches_reach_iff loopHere (fun _ => none) topLabel 0x1000 _ rfl henc).mpr ?_
  intro i ins name addend l hi hb hl
  obtain rfl : i = 0 := by simpa [loopHere] using (List.getElem?_eq_some_iff.mp hi).1
  obtain rfl : _ = ins := Option.some.inj hi
  obtain ⟨rfl, rfl⟩ : "top" = name ∧ (-5 : Int32) = addend := by
    simpa [Instruction.labelBranch] using hb
  obtain rfl : 0 = l := by simpa [topLabel] using hl
  decide

/-- A jump over a `nop`. -/
def overNop : List Instruction :=
  [⟨.Jmp, [.LabelRef "end" 0], none, .Mode64⟩, ⟨.Nop, [], none, .Mode64⟩, ⟨.Nop, [], none, .Mode64⟩]

def endLabel : LabelMap := fun name => if name = "end" then some 2 else none

/-- The jump over a `nop` goes five bytes too far, past the end of the buffer. -/
theorem over_nop_misses :
    ¬ ∀ instructions symbols labels base code,
      (resolve_symbols instructions symbols labels).2 = .ok () →
      Encoded (resolve_symbols instructions symbols labels).1 code →
      BranchesReach base instructions labels code := by
  intro hall
  have hreach := hall overNop (fun _ => none) endLabel 0
    [[0xE9, 0x06, 0x00, 0x00, 0x00], [0x90], [0x90] ] rfl
    (.cons ⟨.new, rfl⟩ (.cons ⟨.new, rfl⟩ (.cons ⟨.new, rfl⟩ .nil)))
    0 _ "end" 0 2 rfl rfl rfl
  obtain ⟨insn, rest, target, hdec, htarget, hzero⟩ := hreach
  have hinsn : decode .long [0xE9, 0x06, 0x00, 0x00, 0x00, 0x90, 0x90] = some (insn, rest) := hdec
  have hgo : ((decode .long [0xE9, 0x06, 0x00, 0x00, 0x00, 0x90, 0x90]).bind fun r =>
      r.1.jumpsTo 0) = some 11 := by decide
  rw [hinsn] at hgo
  obtain rfl : target = 11 := Option.some.inj (htarget.symm.trans hgo)
  exact absurd hzero (by decide)

end paideia_as_runtime
