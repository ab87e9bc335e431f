-- `text_emitter.rs` of the PE crate and the function symbols of `cmd_build/elf.rs`: the
-- instructions are encoded one behind the other, and each function gets the range
-- from its first instruction to that of the next function.
import PaideiaAs.CmdBuild.Fixup
import PaideiaAs.Encoder.EncodeInstruction
import PaideiaAs.Ir.Schedule
import PaideiaAs.Lib.Cuts

namespace paideia_as_emitter_pe.text_emitter

open paideia_as_encoder paideia_as_ir paideia_as_ir.opt.schedule

/-! ## The text -/

/-- What the emitter has so far: the bytes, and what `EmitResult` collects. The
offsets are cut to 32 bits. -/
structure Text where
  bytes : List UInt8
  offset_map : List (IrNodeId × Nat)
  reloc_sites : List RelocSite
  label_fixups : List LabelFixup

def Text.empty : Text := ⟨[], [], [], []⟩

/-- Where the next instruction begins. -/
def Text.offset (text : Text) : Nat := text.bytes.length % 2 ^ 32

/-- The bytes and the sites of one instruction. -/
def Text.add (text : Text) (node_id : IrNodeId) (bs : List UInt8) (out : EncodeOutput) : Text where
  bytes := text.bytes ++ bs
  offset_map := text.offset_map ++ [(node_id, text.offset)]
  reloc_sites := text.reloc_sites ++
    out.reloc_sites.map fun s => { s with byte_offset := text.offset + s.byte_offset }
  label_fixups := text.label_fixups ++
    out.label_fixups.map fun f => { f with byte_offset := text.offset + f.byte_offset }

/-- The turns of the loop. An error names its node. -/
def emit_entries : List Entry → Text → Except (IrNodeId × Stop) Text
  | [], text => .ok text
  | e :: es, text =>
    match encode_instruction e.instr with
    | ⟨bs, .ok out⟩ => emit_entries es (text.add e.id bs out)
    | ⟨_, .error stop⟩ => .error (e.id, stop)

def emit_text_from_instructions (table : InstructionSideTable) : Except (IrNodeId × Stop) Text :=
  emit_entries (emitted table) .empty

end paideia_as_emitter_pe.text_emitter

namespace paideia_as.cmd_build

open paideia_as_encoder paideia_as_ir paideia_as_ir.opt.schedule paideia_as_emitter_pe.text_emitter
open IrNodeId (one_ne two_ne)

/-! ## The object -/

inductive SymbolKind where
  | Function
  | Object
  | Undefined
  deriving DecidableEq

inductive Visibility where
  | Local
  | Global
  deriving DecidableEq

/-- A symbol of the arena. -/
structure Symbol where
  name : String
  kind : SymbolKind
  ir_node : IrNodeId
  visibility : Visibility

inductive SymKind where
  | Func
  | Undefined
  deriving DecidableEq

/-- A symbol for the writer, without the section of a data symbol. -/
structure SymbolEntry where
  name : String
  kind : SymKind
  is_global : Bool
  offset : Option Nat
  size : Nat
  deriving DecidableEq

/-- What the walker hands over: the first instruction of each lambda, and the labels. -/
structure WalkerState where
  lambda_first_instr : List (UInt32 × IrNodeId)
  label_to_instr : List (String × IrNodeId)
  labels : List (String × UInt32)

/-- The text of the table. With `encoder_warn` an instruction that cannot be
encoded leaves an empty text. -/
def text_of (encoder_warn : Bool) (table : InstructionSideTable) : Outcome (Option Text) :=
  if table.entries.isEmpty then .ok (some .empty)
  else
    match emit_text_from_instructions table with
    | .ok text => .ok (some text)
    | .error (_, .err _) => .ok (if encoder_warn then some .empty else none)
    | .error (_, .panic _) => .error .panic

/-- The labels by their instructions, before those that the walker placed itself. -/
def resolved_labels (walker : WalkerState) (offset_map : List (IrNodeId × Nat)) : Labels :=
  fun name =>
    match (walker.label_to_instr.lookup name).bind (offset_map.lookup ·) with
    | some byte_offset => some byte_offset.toUInt32
    | none => walker.labels.lookup name

/-- The lambdas whose first instruction is in the text. -/
def function_offsets (walker : WalkerState) (offset_map : List (IrNodeId × Nat)) :
    List (UInt32 × Nat) :=
  walker.lambda_first_instr.filterMap fun l => (offset_map.lookup l.2).map fun off => (l.1, off)

/-- Where the range of a function ends: at the next function, or at the end of the
text. -/
def function_end (offsets : List (UInt32 × Nat)) (text_len off : Nat) : Nat :=
  Cuts.next (Sorting.sorted (offsets.map (·.2))) text_len off

/-- The range of a function symbol. One without an offset gets the placeholder. -/
def function_range (offsets : List (UInt32 × Nat)) (text_len : Nat) (ir_node : IrNodeId) :
    Nat × Nat :=
  match offsets.lookup ir_node.get with
  | some off => (off, function_end offsets text_len off - off)
  | none => (0, 0)

def symbol_entry (offsets : List (UInt32 × Nat)) (text_len : Nat) (symbol : Symbol) :
    Option SymbolEntry :=
  if symbol.ir_node.get = 0xFFFFFFFF then none
  else
    match symbol.kind with
    | .Function =>
      let (offset, size) := function_range offsets text_len symbol.ir_node
      some ⟨symbol.name, .Func, symbol.visibility = .Global, some offset, size⟩
    | .Object => none
    | .Undefined => some ⟨symbol.name, .Undefined, true, none, 0⟩

/-- What `build_elf_object` has put together for the text section: its bytes, the
offsets of the lambdas, and the symbols. -/
structure ElfObject where
  text_bytes : List UInt8
  function_offsets : List (UInt32 × Nat)
  symbols : List SymbolEntry

def build_elf_object (encoder_warn : Bool) (table : InstructionSideTable) (walker : WalkerState)
    (symbols : List Symbol) : Outcome (Option ElfObject) := do
  match ← text_of encoder_warn table with
  | none => .ok none
  | some text =>
    let text_bytes ← patch_label_fixups (resolved_labels walker text.offset_map) text.bytes
      text.label_fixups
    let offsets := function_offsets walker text.offset_map
    .ok (some ⟨text_bytes, offsets, symbols.filterMap (symbol_entry offsets text_bytes.length)⟩)

/-! ## The ranges -/

/-- The ranges of the function symbols. -/
def ElfObject.functions (object : ElfObject) : List (Nat × Nat) :=
  object.symbols.filterMap fun e =>
    if e.kind = .Func then e.offset.map fun off => (off, e.size) else none

/-- The ranges of the emitted lambdas, with or without a symbol. -/
def ElfObject.lambdas (object : ElfObject) : List (Nat × Nat) :=
  object.function_offsets.map fun l =>
    (l.2, function_end object.function_offsets object.text_bytes.length l.2 - l.2)

section

variable {text text' : Text} {es : List Entry}

/-- No instruction begins behind the end of the text. -/
theorem emit_entries_offsets (h : emit_entries es text = .ok text')
    (hbefore : ∀ o ∈ text.offset_map, o.2 ≤ text.bytes.length) :
    ∀ o ∈ text'.offset_map, o.2 ≤ text'.bytes.length := by
  induction es generalizing text with
  | nil =>
    cases h
    exact hbefore
  | cons e es ih =>
    unfold emit_entries at h
    split at h
    · rename_i bs out _
      refine ih h ?_
      intro o ho
      show o.2 ≤ (text.bytes ++ bs).length
      rw [List.length_append]
      rcases List.mem_append.mp ho with ho | ho
      · have := hbefore o ho
        omega
      · rw [List.mem_singleton.mp ho]
        show text.bytes.length % 2 ^ 32 ≤ _
        omega
    · cases h

theorem text_of_offsets {encoder_warn : Bool} {table : InstructionSideTable}
    (h : text_of encoder_warn table = .ok (some text)) :
    ∀ o ∈ text.offset_map, o.2 ≤ text.bytes.length := by
  unfold text_of at h
  split at h
  · cases h
    exact nofun
  · split at h
    · rename_i hemit
      cases h
      exact emit_entries_offsets hemit nofun
    · split at h
      · cases h
        exact nofun
      · cases h
    · cases h

/-- Branches are filled in without moving a byte. -/
theorem length_patch_label_fixups {labels : Labels} {buffer buffer' : List UInt8}
    {fixups : List LabelFixup} (h : patch_label_fixups labels buffer fixups = .ok buffer') :
    buffer'.length = buffer.length := by
  induction fixups generalizing buffer with
  | nil =>
    cases h
    rfl
  | cons fixup rest ih =>
    obtain ⟨label_offset, -, h⟩ := Outcome.bind_eq_ok.mp h
    rw [ih h]
    unfold patch_label_fixup
    dsimp only
    split
    · rename_i hin
      apply Bytes.length_patch_inside (f := ⟨_, Bytes.sle 4 _⟩)
      unfold Bytes.Field.Inside
      simpa using hin
    · rfl

end

section

variable {encoder_warn : Bool} {table : InstructionSideTable} {walker : WalkerState}
  {symbols : List Symbol} {object : ElfObject}

section

variable (h : build_elf_object encoder_warn table walker symbols = .ok (some object))

include h

theorem build_elf_object_eq : (∀ l ∈ object.function_offsets, l.2 ≤ object.text_bytes.length) ∧
      object.symbols =
        symbols.filterMap (symbol_entry object.function_offsets object.text_bytes.length) := by
  obtain ⟨text, htext, h⟩ := Outcome.bind_eq_ok.mp h
  cases text with
  | none => cases h
  | some text =>
    obtain ⟨bytes, hbytes, h⟩ := Outcome.bind_eq_ok.mp h
    cases h
    refine ⟨?_, rfl⟩
    intro l hl
    obtain ⟨first, -, hmap⟩ := List.mem_filterMap.mp hl
    obtain ⟨off, hoff, rfl⟩ := Option.map_eq_some_iff.mp hmap
    obtain ⟨front, back, heq, -⟩ := List.lookup_eq_some_iff.mp hoff
    show off ≤ bytes.length
    rw [length_patch_label_fixups hbytes]
    exact text_of_offsets htext (first.2, off) (by rw [heq]; simp)

theorem lambdas_partition : Cuts.Partition object.lambdas object.text_bytes.length := by
  obtain ⟨hle, -⟩ := build_elf_object_eq h
  apply Cuts.partition_of_cuts (Sorting.pairwise_sorted (object.function_offsets.map (·.2)))
  · intro c hc
    obtain ⟨l, hl, rfl⟩ := List.mem_map.mp (Sorting.mem_sorted.mp hc)
    exact hle l hl
  · intro r hr
    obtain ⟨l, hl, rfl⟩ := List.mem_map.mp hr
    exact ⟨Sorting.mem_sorted.mpr (List.mem_map_of_mem hl), rfl⟩
  · intro c hc
    obtain ⟨l, hl, rfl⟩ := List.mem_map.mp (Sorting.mem_sorted.mp hc)
    exact ⟨_, List.mem_map_of_mem hl, rfl⟩

omit h in
theorem function_range_cases (ir_node : IrNodeId) :
    function_range object.function_offsets object.text_bytes.length ir_node ∈ object.lambdas ∨
      function_range object.function_offsets object.text_bytes.length ir_node = (0, 0) := by
  unfold function_range
  split
  · rename_i off hoff
    obtain ⟨front, back, heq, -⟩ := List.lookup_eq_some_iff.mp hoff
    refine .inl (List.mem_map.mpr ⟨(ir_node.get, off), ?_, rfl⟩)
    rw [heq]
    simp
  · exact .inr rfl

theorem functions_cases : ∀ r ∈ object.functions, r ∈ object.lambdas ∨ r = (0, 0) := by
  intro r hr
  obtain ⟨e, he, hr⟩ := List.mem_filterMap.mp hr
  rw [(build_elf_object_eq h).2] at he
  obtain ⟨symbol, -, hentry⟩ := List.mem_filterMap.mp he
  unfold symbol_entry at hentry
  split at hentry
  · cases hentry
  · split at hentry
    · cases hentry
      cases hr
      exact function_range_cases symbol.ir_node
    · cases hentry
    · cases hentry
      cases hr

end

/-- The ranges of the emitted functions partition the text from the first of them on.
A function symbol has the range of its lambda, and one without an emitted lambda the
empty range at 0; so the ranges of function symbols are apart, and partition the text
if each emitted lambda has a symbol. -/
theorem function_symbols_partition
    (h : build_elf_object encoder_warn table walker symbols = .ok (some object)) :
    Cuts.Partition object.lambdas object.text_bytes.length ∧
    (∀ symbol ∈ symbols, symbol.kind = .Function → symbol.ir_node.get ≠ 0xFFFFFFFF →
      ∃ e ∈ object.symbols, e.name = symbol.name ∧ e.kind = .Func ∧
        match object.function_offsets.lookup symbol.ir_node.get with
        | some off => e.offset = some off ∧ (off, e.size) ∈ object.lambdas
        | none => e.offset = some 0 ∧ e.size = 0) ∧
    (∀ r ∈ object.functions, ∀ r' ∈ object.functions, r.1 ≠ r'.1 →
      r.1 + r.2 ≤ r'.1 ∨ r'.1 + r'.2 ≤ r.1) ∧
    ((∀ r ∈ object.lambdas, r ∈ object.functions) →
      Cuts.Partition (object.functions.filter (· ≠ (0, 0))) object.text_bytes.length) := by
  have hpart := lambdas_partition h
  have hcases := functions_cases h
  refine ⟨hpart, ?_, ?_, ?_⟩
  · intro symbol hsymbol hkind hreal
    have hentry : symbol_entry object.function_offsets object.text_bytes.length symbol =
        some ⟨symbol.name, .Func, symbol.visibility = .Global,
          some (function_range object.function_offsets object.text_bytes.length symbol.ir_node).1,
          (function_range object.function_offsets object.text_bytes.length symbol.ir_node).2⟩ := by
      unfold symbol_entry
      rw [if_neg hreal, hkind]
    have hmem := List.mem_filterMap.mpr ⟨symbol, hsymbol, hentry⟩
    rw [← (build_elf_object_eq h).2] at hmem
    refine ⟨_, hmem, rfl, rfl, ?_⟩
    unfold function_range
    cases hoff : object.function_offsets.lookup symbol.ir_node.get with
    | none => exact ⟨rfl, rfl⟩
    | some off =>
      obtain ⟨front, back, heq, -⟩ := List.lookup_eq_some_iff.mp hoff
      refine ⟨rfl, List.mem_map.mpr ⟨(symbol.ir_node.get, off), ?_, rfl⟩⟩
      rw [heq]
      simp
  · -- the placeholder is empty, so it lies apart from everything
    intro r hr r' hr' hne
    rcases hcases r hr with hmem | rfl
    · rcases hcases r' hr' with hmem' | rfl
      · exact hpart.apart r hmem r' hmem' hne
      · exact .inr (Nat.zero_le _)
    · exact .inl (Nat.zero_le _)
  · intro hnamed
    apply hpart.of_subset
    · intro r hr
      obtain ⟨hmem, hne⟩ := List.mem_filter.mp hr
      rcases hcases r hmem with hmem | rfl
      · exact hmem
      · exact absurd hne (by decide)
    · intro r hr
      by_cases hne : r = (0, 0)
      · exact .inr hne
      · exact .inl (List.mem_filter.mpr ⟨hnamed r hr, by simpa using hne⟩)

end

def two_returns : InstructionSideTable where
  entries := [⟨⟨1, one_ne⟩, 0, ⟨.Ret, [], none, .Mode64⟩⟩, ⟨⟨2, two_ne⟩, 1, ⟨.Ret, [], none, .Mode64⟩⟩]
  nodup := by decide

def fn (name : String) (ir_node : IrNodeId) : Symbol := ⟨name, .Function, ir_node, .Global⟩

theorem text_of_two_returns : text_of false two_returns = .ok (some
    ⟨[0xC3, 0xC3], [(⟨1, by decide⟩, 0), (⟨2, by decide⟩, 1)], [], []⟩) := by
  have hemitted : emitted two_returns = two_returns.entries :=
    List.mergeSort_of_pairwise (by decide)
  unfold text_of emit_text_from_instructions
  rw [hemitted]
  rfl

/-- The lambda of `f` begins the text, that of `g` follows. -/
def both_emitted : WalkerState :=
  ⟨[(10, ⟨1, one_ne⟩), (11, ⟨2, two_ne⟩)], [], []⟩

theorem function_symbols_partition_two :
    ∃ object, build_elf_object false two_returns both_emitted
        [fn "f" ⟨10, by decide⟩, fn "g" ⟨11, by decide⟩] = .ok (some object) ∧
      object.functions = [(0, 1), (1, 1)] ∧
      Cuts.Partition (object.functions.filter (· ≠ (0, 0))) object.text_bytes.length := by
  have hbuild : build_elf_object false two_returns both_emitted
      [fn "f" ⟨10, by decide⟩, fn "g" ⟨11, by decide⟩]
      = .ok (some ⟨[0xC3, 0xC3], [(10, 0), (11, 1)],
          [⟨"f", .Func, true, some 0, 1⟩, ⟨"g", .Func, true, some 1, 1⟩]⟩) := by
    unfold build_elf_object
    rw [text_of_two_returns]
    rfl
  exact ⟨_, hbuild, rfl, (function_symbols_partition hbuild).2.2.2 (by decide)⟩

/-- Only the second return belongs to a lambda, that of `f`; the body of `g` gave no
instruction. -/
def one_emitted : WalkerState := ⟨[(10, ⟨2, two_ne⟩)], [], []⟩

/-- The symbol of `g` stands at 0, where the text is in no range. -/
theorem placeholder_leaves_gap :
    ∃ object, build_elf_object false two_returns one_emitted
        [fn "f" ⟨10, by decide⟩, fn "g" ⟨11, by decide⟩] = .ok (some object) ∧
      object.functions = [(1, 1), (0, 0)] ∧ object.text_bytes.length = 2 ∧
      ¬ Cuts.Partition object.functions object.text_bytes.length := by
  have hbuild : build_elf_object false two_returns one_emitted
      [fn "f" ⟨10, by decide⟩, fn "g" ⟨11, by decide⟩]
      = .ok (some ⟨[0xC3, 0xC3], [(10, 1)],
          [⟨"f", .Func, true, some 1, 1⟩, ⟨"g", .Func, true, some 0, 0⟩]⟩) := by
    unfold build_elf_object
    rw [text_of_two_returns]
    rfl
  refine ⟨_, hbuild, rfl, rfl, ?_⟩
  intro hpart
  have hgap := hpart.no_gap 0 (by decide) ⟨(0, 0), by decide, le_rfl⟩
  revert hgap
  decide

end paideia_as.cmd_build
