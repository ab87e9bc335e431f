-- What `resolve_symbols` leaves behind: after `Ok` no operand should hold a
-- symbol or a label, and no call should crash. The operands under a segment
-- override are passed by, and a label index is not checked.
import PaideiaAs.Runtime.Resolve

namespace paideia_as_runtime

/-! ## Operands -/

/-- A symbol or a label stands in the operand, at any depth. -/
def Operand.symbolic : Operand → Bool
  | .SymbolRef _ _ | .LabelRef _ _ | .MemRipRelSym _ _ | .MemSymIndexed _ _ _ _ => true
  | .MemSeg _ inner => inner.symbolic
  | _ => false

/-- A symbol or a label stands under a segment override. -/
def Operand.hides : Operand → Bool
  | .MemSeg _ inner => inner.symbolic
  | _ => false

section

variable (symbols : SymbolTable) (labels : LabelMap) (n : Nat)

/-- An address with its addend, as a signed 32-bit displacement. -/
def reaches (name : String) (addend : Int32) : Bool :=
  (symbols name).any fun sym_addr =>
    decide (-2147483648 ≤ (sym_addr.toInt64 + addend.toInt64).toInt ∧
      (sym_addr.toInt64 + addend.toInt64).toInt ≤ 2147483647)

/-- The operand has a name that is not known, or an address that does not fit. -/
def Operand.refused : Operand → Bool
  | .SymbolRef name _ => (symbols name).isNone
  | .LabelRef name _ => (labels name).isNone
  | .MemRipRelSym name addend => !reaches symbols name addend
  | .MemSymIndexed name addend _ _ => !reaches symbols name addend
  | _ => false

/-- A label whose index is past the end of `n` instructions. -/
def Operand.pastEnd : Operand → Bool
  | .LabelRef name _ => (labels name).any (n ≤ ·)
  | _ => false

/-- The call does not go on after the operand. -/
def Operand.stops (op : Operand) : Bool := op.refused symbols labels || op.pastEnd labels n

end

section

variable {symbols : SymbolTable} {labels : LabelMap} {offsets : List Nat} {n : Nat}

/-- The two forms that need an address of 32 bits. -/
theorem resolve_address {i j : Nat} {name : String} {addend : Int32} (form : Int32 → Operand)
    (hform : ∀ d, (form d).symbolic = false) :
    (reaches symbols name addend = true → ∃ op', (do
        let sym_addr ← symbol_address symbols i j name
        .ok (form (← displacement i sym_addr (sym_addr.toInt64 + addend.toInt64)))) = .ok op' ∧
      op'.symbolic = false) ∧
    (reaches symbols name addend = false → ∃ e, (do
        let sym_addr ← symbol_address symbols i j name
        .ok (form (← displacement i sym_addr (sym_addr.toInt64 + addend.toInt64)))) =
          .error (.err e)) := by
  unfold reaches symbol_address
  cases hs : symbols name with
  | none => exact ⟨fun h => by simp at h, fun _ => ⟨_, rfl⟩⟩
  | some sym_addr =>
    simp only [Option.any_some, decide_eq_true_eq, decide_eq_false_iff_not]
    constructor
    · intro h
      have hd : displacement i sym_addr (sym_addr.toInt64 + addend.toInt64) = .ok _ := if_pos h
      refine ⟨form (sym_addr.toInt64 + addend.toInt64).toInt32, ?_, hform _⟩
      show displacement i sym_addr _ >>= (fun d => .ok (form d)) = _
      rw [hd]
      rfl
    · intro h
      have hd : displacement i sym_addr (sym_addr.toInt64 + addend.toInt64) = .error _ := if_neg h
      refine ⟨.OutOfRange i sym_addr "i32", ?_⟩
      show displacement i sym_addr _ >>= (fun d => .ok (form d)) = _
      rw [hd]
      rfl

/-- An operand that does not stop the call keeps a symbol only under a segment
override. -/
theorem resolve_operand_ok (hn : offsets.length = n) {op : Operand}
    (h : op.stops symbols labels n = false) (i j : Nat) :
    ∃ op', resolve_operand symbols labels offsets i j op = .ok op' ∧ op'.symbolic = op.hides := by
  unfold Operand.stops at h
  obtain ⟨hrefused, hpast⟩ := Bool.or_eq_false_iff.mp h
  cases op with
  | SymbolRef name addend =>
    simp only [Operand.refused] at hrefused
    cases hs : symbols name with
    | none => simp [hs] at hrefused
    | some a => exact ⟨_, by simp only [resolve_operand, symbol_address, hs]; rfl, rfl⟩
  | LabelRef name addend =>
    simp only [Operand.refused, Operand.pastEnd] at hrefused hpast
    cases hl : labels name with
    | none => simp [hl] at hrefused
    | some l =>
      have hlt : l < offsets.length := by simpa [hl, hn] using hpast
      refine ⟨.Imm64 (Int64.ofNat offsets[l] + addend.toInt64), ?_, rfl⟩
      simp only [resolve_operand, hl, List.getElem?_eq_getElem hlt]
  | MemRipRelSym name addend =>
    have hr : reaches symbols name addend = true := by simpa [Operand.refused] using hrefused
    exact (resolve_address .MemRipRel fun _ => rfl).1 hr
  | MemSymIndexed name addend index scale =>
    have hr : reaches symbols name addend = true := by simpa [Operand.refused] using hrefused
    exact (resolve_address (.MemDispIndexed · index scale) fun _ => rfl).1 hr
  | _ => exact ⟨_, rfl, rfl⟩

theorem resolve_operand_stops (hn : offsets.length = n) {op : Operand}
    (h : op.stops symbols labels n = true) (i j : Nat) :
    ∃ e, resolve_operand symbols labels offsets i j op = .error e ∧
      (e = .panic ↔ op.pastEnd labels n = true) := by
  unfold Operand.stops at h
  cases op with
  | SymbolRef name addend =>
    have hs : symbols name = none := by simpa [Operand.refused, Operand.pastEnd] using h
    exact ⟨_, by simp only [resolve_operand, symbol_address, hs]; rfl, by simp [Operand.pastEnd]⟩
  | LabelRef name addend =>
    cases hl : labels name with
    | none =>
      refine ⟨.err (.UnknownLabel i j name), ?_, by simp [Operand.pastEnd, hl]⟩
      simp only [resolve_operand, hl]
    | some l =>
      have hle : n ≤ l := by simpa [Operand.refused, Operand.pastEnd, hl] using h
      have hnone : offsets[l]? = none := List.getElem?_eq_none (hn ▸ hle)
      refine ⟨.panic, ?_, by simp [Operand.pastEnd, hl, hle]⟩
      simp only [resolve_operand, hl, hnone]
  | MemRipRelSym name addend =>
    have hr : reaches symbols name addend = false := by
      simpa [Operand.refused, Operand.pastEnd] using h
    obtain ⟨e, he⟩ := (resolve_address (i := i) (j := j) .MemRipRel fun _ => rfl).2 hr
    exact ⟨.err e, he, by simp [Operand.pastEnd]⟩
  | MemSymIndexed name addend index scale =>
    have hr : reaches symbols name addend = false := by
      simpa [Operand.refused, Operand.pastEnd] using h
    obtain ⟨e, he⟩ :=
      (resolve_address (i := i) (j := j) (.MemDispIndexed · index scale) fun _ => rfl).2 hr
    exact ⟨.err e, he, by simp [Operand.pastEnd]⟩
  | _ => simp [Operand.refused, Operand.pastEnd] at h

end

/-! ## Runs -/

/-- The operands in reading order. -/
def operandsOf (instructions : List Instruction) : List Operand :=
  instructions.flatMap (·.operands)

theorem forall_mem_operandsOf {instructions : List Instruction} {P : Operand → Prop} :
    (∀ ins ∈ instructions, ∀ op ∈ ins.operands, P op) ↔ ∀ op ∈ operandsOf instructions, P op := by
  unfold operandsOf
  simp only [List.mem_flatMap]
  exact ⟨fun h op ⟨ins, hins, hop⟩ => h ins hins op hop, fun h ins hins op hop => h op ⟨ins, hins, hop⟩⟩

/-- A call went through a list of operands up to the first that stops it. -/
structure GoesThrough (symbols : SymbolTable) (labels : LabelMap) (n : Nat) (ops : List Operand)
    (after : List Operand) (r : Except ResolveStop Unit) : Prop where
  done : ops.find? (·.stops symbols labels n) = none →
    r = .ok () ∧ after.map (·.symbolic) = ops.map (·.hides)
  stopped : ∀ op, ops.find? (·.stops symbols labels n) = some op →
    ∃ e, r = .error e ∧ (e = .panic ↔ op.pastEnd labels n = true)

section

variable {symbols : SymbolTable} {labels : LabelMap} {offsets : List Nat} {n : Nat}

theorem resolve_operands_through (hn : offsets.length = n) (ops : List Operand) (i j : Nat) :
    GoesThrough symbols labels n ops (resolve_operands symbols labels offsets i j ops).1
      (resolve_operands symbols labels offsets i j ops).2 := by
  induction ops generalizing j with
  | nil => exact ⟨fun _ => ⟨rfl, rfl⟩, fun _ h => by cases h⟩
  | cons op ops ih =>
    unfold resolve_operands
    cases hs : op.stops symbols labels n with
    | false =>
      obtain ⟨op', hop, hsym⟩ := resolve_operand_ok hn hs i j
      obtain ⟨hdone, hstopped⟩ := ih (j + 1)
      simp only [hop]
      constructor
      · intro h
        rw [List.find?_cons_of_neg (by simp [hs])] at h
        obtain ⟨hr, hmap⟩ := hdone h
        exact ⟨hr, by rw [List.map_cons, List.map_cons, hmap, hsym]⟩
      · intro op h
        rw [List.find?_cons_of_neg (by simp [hs])] at h
        exact hstopped op h
    | true =>
      obtain ⟨e, hop, hpanic⟩ := resolve_operand_stops hn hs i j
      simp only [hop]
      have hfind := List.find?_cons_of_pos (p := (·.stops symbols labels n)) (l := ops) hs
      constructor
      · intro h
        cases hfind.symm.trans h
      · intro op' h
        obtain rfl := Option.some.inj (hfind.symm.trans h)
        exact ⟨e, rfl, hpanic⟩

theorem resolve_from_through (hn : offsets.length = n) (instructions : List Instruction) (i : Nat) :
    GoesThrough symbols labels n (operandsOf instructions)
      (operandsOf (resolve_from symbols labels offsets i instructions).1)
      (resolve_from symbols labels offsets i instructions).2 := by
  induction instructions generalizing i with
  | nil => exact ⟨fun _ => ⟨rfl, rfl⟩, fun _ h => by cases h⟩
  | cons ins rest ih =>
    unfold resolve_from
    rcases hops : resolve_operands symbols labels offsets i 0 ins.operands with ⟨operands, r⟩
    obtain ⟨hdone, hstopped⟩ := @resolve_operands_through symbols labels offsets n hn ins.operands i 0
    rw [hops] at hdone hstopped
    have hfind : (operandsOf (ins :: rest)).find? (·.stops symbols labels n) =
        (ins.operands.find? (·.stops symbols labels n)).or
          ((operandsOf rest).find? (·.stops symbols labels n)) := by
      unfold operandsOf
      rw [List.flatMap_cons, List.find?_append]
    cases hfirst : ins.operands.find? (·.stops symbols labels n) with
    | none =>
      obtain ⟨rfl, hmap⟩ := hdone hfirst
      obtain ⟨hdone', hstopped'⟩ := ih (i + 1)
      rw [hfirst, Option.none_or] at hfind
      constructor
      · intro h
        obtain ⟨hr, hrest⟩ := hdone' (hfind.symm.trans h)
        refine ⟨hr, ?_⟩
        unfold operandsOf at hrest ⊢
        simp only [List.flatMap_cons, List.map_append]
        exact congrArg₂ (· ++ ·) hmap hrest
      · intro op h
        exact hstopped' op (hfind.symm.trans h)
    | some op =>
      obtain ⟨e, rfl, hpanic⟩ := hstopped op hfirst
      rw [hfirst, Option.some_or] at hfind
      constructor
      · intro h
        cases hfind.symm.trans h
      · intro op' h
        obtain rfl := Option.some.inj (hfind.symm.trans h)
        exact ⟨e, rfl, hpanic⟩

end

/-! ## What a call leaves -/

/-- The call returns, and after `Ok` nothing symbolic is left. -/
def LeavesNoSymbol (result : List Instruction × Except ResolveStop Unit) : Prop :=
  result.2 ≠ .error .panic ∧
    (result.2 = .ok () → ∀ ins ∈ result.1, ∀ op ∈ ins.operands, op.symbolic = false)

/-- The first operand that stops the call, if there is one, is refused with an
error; and if there is none, nothing symbolic stands under a segment override. -/
structure WithinReach (instructions : List Instruction) (symbols : SymbolTable)
    (labels : LabelMap) : Prop where
  refused : ∀ op, (operandsOf instructions).find?
      (·.stops symbols labels instructions.length) = some op →
    op.pastEnd labels instructions.length = false
  visible : (operandsOf instructions).find? (·.stops symbols labels instructions.length) = none →
    ∀ op ∈ operandsOf instructions, op.hides = false

/-- On success no name is left, exactly if none is out of reach. -/
theorem resolve_symbols_complete_iff (instructions : List Instruction) (symbols : SymbolTable)
    (labels : LabelMap) :
    LeavesNoSymbol (resolve_symbols instructions symbols labels) ↔
      WithinReach instructions symbols labels := by
  obtain ⟨hdone, hstopped⟩ := @resolve_from_through symbols labels (layout 0 instructions)
    instructions.length (length_layout 0 instructions) instructions 0
  unfold LeavesNoSymbol resolve_symbols
  cases hfind : (operandsOf instructions).find? (·.stops symbols labels instructions.length) with
  | none =>
    obtain ⟨hr, hmap⟩ := hdone hfind
    have hall : (∀ ins ∈ (resolve_from symbols labels (layout 0 instructions) 0 instructions).1,
        ∀ op ∈ ins.operands, op.symbolic = false) ↔
          ∀ op ∈ operandsOf instructions, op.hides = false := by
      rw [forall_mem_operandsOf]
      have hboth := congrArg (fun bs : List Bool => ∀ b ∈ bs, b = false) hmap
      simpa only [List.forall_mem_map, eq_iff_iff] using hboth
    rw [hr]
    constructor
    · intro h
      exact ⟨fun op hop => absurd (hfind.symm.trans hop) nofun, fun _ => hall.mp (h.2 rfl)⟩
    · intro h
      exact ⟨nofun, fun _ => hall.mpr (h.visible hfind)⟩
  | some op =>
    obtain ⟨e, hr, hpanic⟩ := hstopped op hfind
    rw [hr]
    constructor
    · intro h
      refine ⟨fun op' hop => ?_, fun hnone => absurd (hfind.symm.trans hnone) nofun⟩
      obtain rfl := Option.some.inj (hfind.symm.trans hop)
      rw [← Bool.not_eq_true, ← hpanic]
      exact fun he => h.1 (congrArg _ he)
    · intro h
      refine ⟨fun he => ?_, nofun⟩
      have hlate := hpanic.mp (Except.error.inj he)
      rw [h.refused op hfind] at hlate
      exact absurd hlate nofun

/-- `mov fs:[rip + sym], rax` keeps its symbol, though the symbol is known, and
a label with the index 1 crashes the call on a slice of one instruction. -/
theorem resolve_symbols_keeps_symbol :
    ¬ LeavesNoSymbol (resolve_symbols
        [⟨.Mov, [.MemSeg .Fs (.MemRipRelSym "sym" 0), .Reg ⟨0⟩], none, .Mode64⟩]
        (fun _ => some 0) fun _ => none) ∧
      ¬ LeavesNoSymbol (resolve_symbols [⟨.Jmp, [.LabelRef "l" 0], none, .Mode64⟩]
        (fun _ => none) fun _ => some 1) := by
  constructor
  · intro h
    exact absurd (h.2 rfl _ (.head _) _ (.head _)) nofun
  · intro h
    exact h.1 rfl

end paideia_as_runtime
