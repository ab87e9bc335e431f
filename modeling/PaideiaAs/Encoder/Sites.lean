-- Relocation and label sites: the field that a site names, and where the
-- instruction points once the site has been filled in.
import PaideiaAs.Encoder.Narrowing
import PaideiaAs.X86.Patch

namespace paideia_as_encoder

open paideia_as_runtime X86
open Bytes (sle)
open Emit (bind_ok_iff pure_ok_iff)

/-! ## What a site asks to be stored -/

/-- The mode in which the code runs. -/
def processorMode : InstrMode → Mode
  | .Mode64 => .long
  | .Mode32 => .prot

/-- `S + A - P`, or `S + A` for an absolute site. -/
def RelocSite.site (r : RelocSite) : Site :=
  match r.kind with
  | .PcRel32 => pcSite r.byte_offset r.addend.toInt
  | .Plt32 => pcSite r.byte_offset r.addend.toInt
  | .Abs32 => absSite r.byte_offset r.addend.toInt
  | .Abs64 => absSite r.byte_offset r.addend.toInt

/-- The displacement counts from the end of the instruction that the fixup
states. -/
def LabelFixup.site (f : LabelFixup) : Site :=
  ⟨f.byte_offset, true, fun S I => S + f.addend.toInt - (I + f.instruction_size)⟩

/-- All sites, by the name they ask for. -/
def EncodeOutput.sites (out : EncodeOutput) : List (String × Site) :=
  out.reloc_sites.map (fun r => (r.symbol, r.site)) ++
    out.label_fixups.map fun f => (f.label_name, f.site)

/-- The name in an operand. -/
def Operand.symbol : Operand → Option (String × Int32)
  | .SymbolRef name addend => some (name, addend)
  | .LabelRef name addend => some (name, addend)
  | .MemRipRelSym name addend => some (name, addend)
  | .MemSymIndexed name addend _ _ => some (name, addend)
  | _ => none

/-- The name that the instruction mentions. -/
def source (operands : List Operand) : Option (String × Int32) :=
  operands.findSome? Operand.symbol

/-- When a site is right. In 64-bit mode the store of an immediate through
`rip` and the direct far jump are wrong. In 32-bit mode there is no `rip`
operand and no register from 8 on. -/
def SiteOk (mode : InstrMode) (mnemonic : Mnemonic) (operands : List Operand) : Prop :=
  match mode, mnemonic, operands with
  | .Mode64, .Mov, [.MemRipRelSym _ _, .Imm64 _] => False
  | .Mode64, .FarJmp, _ => False
  | .Mode64, _, _ => True
  | .Mode32, .Mov, [.Reg r, .SymbolRef _ _] => r.num.toNat < 8
  | .Mode32, .Mov, [.SymbolRef _ _, .Reg r] => r.num.toNat < 8
  | .Mode32, .Mov, [.SymbolRef _ _, .Imm64 _] => True
  | .Mode32, .Lea, [.Reg r, .SymbolRef _ _] => r.num.toNat < 8
  | .Mode32, .Jmp, [.MemSymIndexed _ _ index _] => index.num.toNat < 8
  | .Mode32, .Jmp, _ => True
  | .Mode32, .Jcc _, _ => True
  | .Mode32, .Call, [.SymbolRef _ _] => True
  | .Mode32, .Lgdt, [.SymbolRef _ _] => True
  | .Mode32, .FarJmp, _ => True
  | .Mode32, _, _ => False

example (name : String) (addend : Int32) (imm : Int64) :
    ¬SiteOk .Mode64 .Mov [.MemRipRelSym name addend, .Imm64 imm] := by simp [SiteOk]

/-- Every site belongs to the symbolic operand, and lands exactly if it is
right. -/
def Places (inst : Instruction) (lead bs : List UInt8) (out : EncodeOutput) : Prop :=
  ∀ s ∈ (out.shift lead.length).sites, ∃ addend, source inst.operands = some (s.1, addend) ∧
    (s.2.Lands (processorMode inst.mode) (lead ++ bs) addend.toInt ↔
      SiteOk inst.mode inst.mnemonic inst.operands)

section

variable {inst : Instruction} {lead bs : List UInt8} {out : EncodeOutput} {name : String}
  {addend : Int32}

theorem places_plain {x : Emit Unit} (h : plain x = ⟨bs, .ok out⟩) : Places inst lead bs out := by
  rw [(plain_ok_iff.mp h).2]
  intro s hs
  cases hs

theorem bias_mod (addend : Int32) :
    ((addend + PC32_FIELD_BIAS).toInt - (addend.toInt - 4)) % 4294967296 = 0 := by
  rw [Int32.toInt_add]
  have h : PC32_FIELD_BIAS.toInt = -4 := by decide
  have hmod := @Int.bmod_emod (addend.toInt + PC32_FIELD_BIAS.toInt) (2 ^ 32)
  rw [h] at hmod ⊢
  simp only [Nat.reducePow] at hmod ⊢
  omega

theorem places_pc {off : Nat} {kind : RelocKind} (hkind : kind = .PcRel32 ∨ kind = .Plt32)
    (hsrc : source inst.operands = some (name, addend))
    (hiff : ∀ A, (A - (addend.toInt - 4)) % 4294967296 = 0 →
      ((pcSite (off + lead.length) A).Lands (processorMode inst.mode) (lead ++ bs) addend.toInt ↔
        SiteOk inst.mode inst.mnemonic inst.operands)) :
    Places inst lead bs (pc_site off name kind addend) := by
  intro s hs
  rcases hkind with rfl | rfl <;>
  · rw [List.mem_singleton.mp hs]
    exact ⟨addend, hsrc, hiff _ (bias_mod addend)⟩

theorem places_abs {off : Nat} (hsrc : source inst.operands = some (name, addend))
    (hiff : (absSite (off + lead.length) addend.toInt).Lands (processorMode inst.mode) (lead ++ bs)
        addend.toInt ↔ SiteOk inst.mode inst.mnemonic inst.operands) :
    Places inst lead bs (abs_site off name addend) := by
  intro s hs
  rw [List.mem_singleton.mp hs]
  exact ⟨addend, hsrc, hiff⟩

theorem places_label {off : Nat} (hsrc : source inst.operands = some (name, addend))
    (hiff : (pcSite (off + lead.length) (addend.toInt - 4)).Lands (processorMode inst.mode)
        (lead ++ bs) addend.toInt ↔ SiteOk inst.mode inst.mnemonic inst.operands) :
    Places inst lead bs (.fixup ⟨off, name, addend, off + 4⟩) := by
  intro s hs
  rw [List.mem_singleton.mp hs]
  refine ⟨addend, hsrc, ?_⟩
  rw [← hiff]
  have hsite : LabelFixup.site ⟨off + lead.length, name, addend, off + 4 + lead.length⟩ =
      pcSite (off + lead.length) (addend.toInt - 4) := by
    simp only [LabelFixup.site, pcSite, Site.mk.injEq, true_and]
    funext S I
    push_cast
    omega
  rw [← hsite]

end

/-! ## The shapes of a sited instruction -/

section

variable {lead pre : List UInt8} {u : RexUse} {map : OpMap} {op reg : UInt8} {addend A : Int}

theorem op_rip_zero (pre : List UInt8) (u : RexUse) (map : OpMap) (op reg : UInt8) :
    op_rip pre u (opBytes map op) reg 0 [] =
      (dispForm pre u.w u.force map op (num reg) [] 0).bytes :=
  op_rip_form pre u map op reg 0 []

/-- The bytes before the displacement. -/
def ripFront (pre : List UInt8) (u : RexUse) (map : OpMap) (op reg : UInt8) : Nat :=
  (dispForm pre u.w u.force map op (num reg) [] 0).front.length

theorem ripFront_eq (pre : List UInt8) (u : RexUse) (map : OpMap) (op reg : UInt8) :
    ripFront pre u map op reg =
      pre.length + (if u.w || u.force || high reg then 1 else 0) + (opBytes map op).length + 1 := by
  simp only [ripFront, dispForm, Form.front, Form.rex, Form.opByte, Arg.opByte, Arg.r, Arg.x, Arg.b,
    Arg.lead, Slot.x, Slot.b, Slot.lead, ← high_num, Bool.or_false, List.length_append]
  split_ifs <;> simp

section

variable (hl : SegLead lead)

include hl

theorem rip_lands (htable : tableOk .long pre u.w map op true (num reg % 8) 0 = true)
    (hA : (A - (addend - 4)) % 4294967296 = 0) :
    (pcSite (ripFront pre u map op reg + lead.length) A).Lands .long
      (lead ++ op_rip pre u (opBytes map op) reg 0 []) addend := by
  rw [op_rip_zero, ripFront]
  have hole := @hole_disp pre [] u.w u.force map op (num reg) .long htable (num_lt reg)
    (fun h => by cases h)
  refine pc_lands (fun v => hole.disassemble hl v) ?_ hA
    (fun d I _ _ => dispForm_pointsTo_long d I lead)
  simp [Form.bytes, dispForm, Arg.dispBytes, Slot.dispBytes]
  omega

omit hl in
theorem misses_of_form_rex {f : Form} {p : Rex} (hpre : f.pre = [] ∨ f.pre = [0x66])
    (hrex : f.rex = some p) (hl : SegLead lead) (s : Site)
    (hpos : s.pos = f.front.length + lead.length) : ¬ s.Lands .prot (lead ++ f.bytes) addend := by
  have hbytes : f.bytes = f.pre ++ p.byte :: (opBytes f.map f.opByte ++ f.arg.lead ++
      f.arg.dispBytes ++ f.imm) := by
    simp [Form.bytes, Form.front, hrex]
  have hfront : f.front.length =
      f.pre.length + 1 + (opBytes f.map f.opByte ++ f.arg.lead).length := by
    simp [Form.front, hrex]
    omega
  rw [hbytes]
  exact misses_of_rex hpre p hl s _ (hpos.trans (by rw [hfront])) addend

omit hl in
theorem rip_misses (hpre : pre = [] ∨ pre = [0x66]) (hl : SegLead lead)
    (htable : tableOk .prot pre false map op true (num reg % 8) 0 = true)
    (hA : (A - (addend - 4)) % 4294967296 = 0) :
    ¬ (pcSite (ripFront pre u map op reg + lead.length) A).Lands .prot
      (lead ++ op_rip pre u (opBytes map op) reg 0 []) addend := by
  rw [op_rip_zero]
  cases hrex : (dispForm pre u.w u.force map op (num reg) [] 0).rex with
  | none =>
    have hw : u.w = false := by
      cases u with
      | wide => simp [dispForm, Form.rex, RexUse.w] at hrex
      | need | always => rfl
    exact pc_misses_prot (by rw [hw]; exact htable) (num_lt reg) hrex hl hA
  | some p => exact misses_of_form_rex hpre hrex hl _ rfl

/-- `[abs32]` of 32-bit mode: a register from 8 on gets a REX byte. -/
theorem abs32_lands_iff (r : Reg64)
    (htable : ∀ k < 8, tableOk .prot [] false .one op true k 0 = true) :
    (absSite ((mem_abs32 op r.id).2 + lead.length) addend).Lands .prot
        (lead ++ (mem_abs32 op r.id).1) addend ↔ r.id.toNat < 8 := by
  unfold mem_abs32
  cases hr : high r.id with
  | true =>
    refine iff_of_false ?_ ?_
    · exact misses_of_rex (.inl rfl) ⟨false, false, false, true⟩ hl _ 2 rfl addend
    · rw [high_num, num_id, decide_eq_true_iff] at hr
      omega
  | false =>
    rw [high_num, num_id, decide_eq_false_iff_not] at hr
    refine iff_of_true ?_ (by omega)
    have hhigh : high r.id = false := by
      rw [high_num, num_id]
      simpa using hr
    have hrex : (dispForm [] false false .one op (num r.id) [] 0).rex = none := by
      simp [dispForm, Form.rex, Arg.r, Arg.x, Arg.b, Slot.x, Slot.b]
      omega
    have hbytes : [op, (0x05 : UInt8) ||| ((r.id &&& 7) <<< 3)] ++ [0, 0, 0, 0] =
        (dispForm [] false false .one op (num r.id) [] 0).bytes := by
      have hform := op_rip_zero [] .need .one op r.id
      simp only [op_rip, RexUse.bytes, hhigh] at hform
      exact hform
    have hfront : (dispForm [] false false .one op (num r.id) [] 0).front.length = 2 := by
      have := ripFront_eq [] .need .one op r.id
      simpa [ripFront, hhigh, RexUse.w, RexUse.force, opBytes] using this
    simp only [Bool.false_eq_true, if_false, List.nil_append, Nat.zero_add]
    rw [hbytes, ← hfront]
    exact disp_abs_lands (htable _ (Nat.mod_lt _ (by decide))) (num_lt r.id) hrex hl

theorem rel_lands {m : Mode} (htable : tableOk m [] false map op false 0 4 = true)
    (hrel : isRel map op = true)
    (hA : (A - (addend - 4)) % 4294967296 = 0) :
    (pcSite ((opBytes map op).length + lead.length) A).Lands m
      (lead ++ (relForm map op 0).bytes) addend := by
  have hole := hole_rel htable
  refine pc_lands (fun v => hole.disassemble hl v) ?_ hA
    (fun d I hlo hhi => relForm_pointsTo m hrel hlo hhi I lead)
  simp [relForm, Form.bytes, Form.front, Form.rex, Form.opByte, Arg.opByte, Arg.r, Arg.x, Arg.b,
    Arg.lead, Arg.dispBytes]
  omega

theorem index_lands_iff {mode : InstrMode} (i : Reg64) (s : Scale) :
    (absSite ((indexForm 0xFF 4 i.id.toNat (scaleExp s) 0).front.length + lead.length)
        addend).Lands (processorMode mode)
        (lead ++ (indexForm 0xFF 4 i.id.toNat (scaleExp s) 0).bytes) addend ↔
      (mode = .Mode32 → i.id.toNat < 8) := by
  have hlands : ∀ m : Mode, (m = .prot → (indexForm 0xFF 4 i.id.toNat (scaleExp s) 0).rex = none) →
      (absSite ((indexForm 0xFF 4 i.id.toNat (scaleExp s) 0).front.length + lead.length)
        addend).Lands m (lead ++ (indexForm 0xFF 4 i.id.toNat (scaleExp s) 0).bytes) addend := by
    intro m hrex
    have hole := hole_index (by cases m <;> decide) (by decide) i.id_lt (scaleExp_lt s) hrex
    exact abs_lands (fun v => hole.disassemble hl v)
      (fun d I => ⟨d, indexForm_pointsTo m d I lead, by simp⟩)
  cases mode with
  | Mode64 => exact iff_of_true (hlands .long (fun h => by cases h)) (fun h => by cases h)
  | Mode32 =>
    by_cases h8 : 8 ≤ i.id.toNat
    · have hrex : (indexForm 0xFF 4 i.id.toNat (scaleExp s) 0).rex =
          some (indexForm 0xFF 4 i.id.toNat (scaleExp s) 0).bits := by
        simp [indexForm, Form.rex, Arg.x, Slot.x, h8]
      exact iff_of_false (misses_of_form_rex (.inl rfl) hrex hl _ rfl) (by simp; omega)
    · have hrex : (indexForm 0xFF 4 i.id.toNat (scaleExp s) 0).rex = none := by
        simp [indexForm, Form.rex, Arg.r, Arg.x, Arg.b, Slot.x, Slot.b]
        omega
      exact iff_of_true (hlands .prot fun _ => hrex) (fun _ => by omega)

theorem far_lands_iff {mode : InstrMode} (selector : Int64) :
    (absSite (1 + lead.length) addend).Lands (processorMode mode)
        (lead ++ encode_far_jmp_imm_sym selector) addend ↔ mode = .Mode32 := by
  cases mode with
  | Mode64 =>
    refine iff_of_false (misses_far_long hl _ 0 rfl addend ⟨-addend, 0, fun _ => ?_⟩) (by decide)
    simp [Site.target, absSite]
  | Mode32 =>
    refine iff_of_true ?_ rfl
    have hole := hole_far (length_low 2 selector)
    have hbytes : encode_far_jmp_imm_sym selector = (farForm (low 2 selector) 0).bytes := rfl
    rw [hbytes]
    show Site.Lands _ .prot _ _
    exact abs_lands (fun v => hole.disassemble hl v) (fun d I => farForm_pointsTo I lead)

end

/-- A PC-relative operand is right in 64-bit mode and wrong in 32-bit mode. -/
theorem rip_lands_iff {mode : InstrMode} (hpre : pre = [] ∨ pre = [0x66]) (hl : SegLead lead)
    (hlong : tableOk .long pre u.w map op true (num reg % 8) 0 = true)
    (hprot : tableOk .prot pre false map op true (num reg % 8) 0 = true)
    (hA : (A - (addend - 4)) % 4294967296 = 0) :
    (pcSite (ripFront pre u map op reg + lead.length) A).Lands (processorMode mode)
      (lead ++ op_rip pre u (opBytes map op) reg 0 []) addend ↔ mode = .Mode64 := by
  cases mode with
  | Mode64 => exact iff_of_true (rip_lands hl hlong hA) rfl
  | Mode32 => exact iff_of_false (rip_misses hpre hl hprot hA) (by decide)

end

/-! ## Encoder by encoder -/

section

variable {inst : Instruction} {lead bs : List UInt8} {out : EncodeOutput}

theorem encode_jcc_places {cond : paideia_as_runtime.Cond} (hmn : inst.mnemonic = .Jcc cond)
    (hl : SegLead lead) (h : encode_jcc cond inst = ⟨bs, .ok out⟩) : Places inst lead bs out := by
  unfold encode_jcc at h
  split at h
  · exact places_plain h
  · rename_i heq
    obtain ⟨rfl, rfl⟩ := sited_ok_iff.mp h
    refine places_label (by rw [heq]; rfl) (iff_of_true ?_ ?_)
    · have hbytes : jcc_rel32 (cond_from cond) 0 = (relForm .two (cond_from cond).code 0).bytes := rfl
      rw [hbytes]
      refine rel_lands hl ?_ ?_ (by simp)
      · cases inst.mode <;> cases cond_from cond <;> decide
      · cases cond_from cond <;> decide
    · rw [hmn]
      cases inst.mode <;> trivial
  · simp at h

variable {mode : InstrMode} {op reg : UInt8} {addend A : Int} {name : String}

/-- `E8` and `E9` with the displacement to be filled in. -/
theorem rel32_lands (hl : SegLead lead)
    (hop : op = 0xE8 ∨ op = 0xE9) (hA : (A - (addend - 4)) % 4294967296 = 0) :
    (pcSite (1 + lead.length) A).Lands (processorMode mode) (lead ++ [op, 0, 0, 0, 0]) addend := by
  have hbytes : [op, 0, 0, 0, 0] = (relForm .one op 0).bytes := rfl
  rw [hbytes]
  rcases hop with rfl | rfl <;> exact rel_lands hl (by cases mode <;> decide) (by decide) hA

theorem encode_jmp_places (hmn : inst.mnemonic = .Jmp) (hl : SegLead lead)
    (h : encode_jmp inst = ⟨bs, .ok out⟩) : Places inst lead bs out := by
  have hok : ∀ ops : List Operand, (∀ n a i s, ops ≠ [.MemSymIndexed n a i s]) →
      SiteOk inst.mode .Jmp ops := by
    intro ops hops
    unfold SiteOk
    split <;> first | trivial | exact absurd rfl (hops _ _ _ _)
  unfold encode_jmp at h
  split at h
  · exact places_plain h
  · rename_i heq
    obtain ⟨rfl, rfl⟩ := sited_ok_iff.mp h
    exact places_label (by rw [heq]; rfl) (iff_of_true (rel32_lands hl (.inr rfl) (by simp))
      (by rw [hmn, heq]; exact hok _ (by simp)))
  · rename_i heq
    obtain ⟨rfl, rfl⟩ := sited_ok_iff.mp h
    exact places_pc (.inr rfl) (by rw [heq]; rfl) fun A hA =>
      iff_of_true (rel32_lands hl (.inr rfl) hA) (by rw [hmn, heq]; exact hok _ (by simp))
  · rename_i heq
    simp only [bind_ok_iff, reg64_from_ok_iff, pure_ok_iff] at h
    obtain ⟨_, i, _, ⟨rfl, hi⟩, ⟨_, off, _, hj, ⟨rfl, rfl⟩, rfl⟩, rfl⟩ := h
    obtain ⟨_, rfl, rfl⟩ := jmp_mem_sib_no_base_indexed_ok hj
    refine places_abs (by rw [heq]; rfl) ?_
    rw [List.append_nil, List.nil_append]
    refine (index_lands_iff hl i _).trans ?_
    rw [hmn, heq, ← hi]
    cases inst.mode <;> simp [SiteOk]
  · exact places_plain h
  · exact places_plain h
  · simp at h

theorem encode_call_places (hmn : inst.mnemonic = .Call) (hl : SegLead lead)
    (h : encode_call inst = ⟨bs, .ok out⟩) : Places inst lead bs out := by
  unfold encode_call at h
  split at h
  · exact places_plain h
  · rename_i heq
    obtain ⟨rfl, rfl⟩ := sited_ok_iff.mp h
    exact places_pc (.inr rfl) (by rw [heq]; rfl) fun A hA =>
      iff_of_true (rel32_lands hl (.inl rfl) hA) (by rw [hmn, heq]; cases inst.mode <;> trivial)
  · exact places_plain h
  · exact places_plain h
  · exact places_plain h
  · exact places_plain h
  · rename_i heq
    obtain ⟨rfl, rfl⟩ := sited_ok_iff.mp h
    refine places_pc (.inl rfl) (by rw [heq]; rfl) fun A hA => ?_
    refine (@rip_lands_iff lead [] .need .one 0xFF 2 _ A inst.mode (.inl rfl) hl (by decide)
      (by decide) hA).trans ?_
    rw [hmn, heq]
    cases inst.mode <;> simp [SiteOk]
  · simp at h

/-- `lea` and the wide moves: three bytes before the displacement. -/
theorem wide_rip_lands_iff (hl : SegLead lead)
    (hlong : ∀ k < 8, tableOk .long [] true .one op true k 0 = true)
    (hprot : ∀ k < 8, tableOk .prot [] false .one op true k 0 = true)
    (hA : (A - (addend - 4)) % 4294967296 = 0) :
    (pcSite (3 + lead.length) A).Lands (processorMode mode)
      (lead ++ op_rip [] .wide [op] reg 0 []) addend ↔ mode = .Mode64 := by
  have hfront : ripFront [] .wide .one op reg = 3 := by
    rw [ripFront_eq]
    rfl
  rw [← hfront]
  exact rip_lands_iff (.inl rfl) hl (hlong _ (Nat.mod_lt _ (by decide)))
    (hprot _ (Nat.mod_lt _ (by decide))) hA

theorem lea_rip_places {dest : RegId} {addend : Int32} (hl : SegLead lead)
    (h : lea_rip dest name addend = ⟨bs, .ok out⟩)
    (hsrc : source inst.operands = some (name, addend))
    (hok : SiteOk inst.mode inst.mnemonic inst.operands ↔ inst.mode = .Mode64) :
    Places inst lead bs out := by
  simp only [lea_rip, bind_ok_iff, reg64_from_ok_iff, Emit.push_ok_iff] at h
  obtain ⟨_, r, _, ⟨rfl, _⟩, ⟨_, _, _, rfl, h, rfl⟩, rfl⟩ := h
  split at h
  · simp at h
  · obtain ⟨rfl, rfl⟩ := pure_ok_iff.mp h
    refine places_pc (.inl rfl) hsrc fun A hA => ?_
    rw [hok, List.append_nil, List.nil_append]
    exact wide_rip_lands_iff hl (by decide) (by decide) hA

theorem encode_lea_places (hmn : inst.mnemonic = .Lea) (hl : SegLead lead)
    (h : encode_lea inst = ⟨bs, .ok out⟩) : Places inst lead bs out := by
  unfold encode_lea at h
  split at h
  · exact places_plain h
  · exact places_plain h
  · rename_i heq
    split at h
    case isTrue hmode =>
      simp only [bind_ok_iff, reg64_from_ok_iff] at h
      obtain ⟨_, r, _, ⟨rfl, hr⟩, h, rfl⟩ := h
      obtain ⟨rfl, rfl⟩ := sited_ok_iff.mp h
      refine places_abs (by rw [heq]; rfl) ?_
      rw [hmn, heq, hmode]
      refine (abs32_lands_iff hl r (by decide)).trans ?_
      simp [SiteOk, hr]
    case isFalse hmode =>
      have h64 : inst.mode = .Mode64 := by cases hm : inst.mode <;> simp_all
      exact lea_rip_places hl h (by rw [heq]; rfl) (by rw [hmn, heq, h64]; simp [SiteOk])
  · rename_i heq
    exact lea_rip_places hl h (by rw [heq]; rfl)
      (by rw [hmn, heq]; cases inst.mode <;> simp [SiteOk])
  · simp at h

/-- The descriptor loads: `0F 01 /digit`. -/
theorem descriptor_lands_iff {digit : UInt8}
    (hd : digit = 2 ∨ digit = 3) (hl : SegLead lead) (hA : (A - (addend - 4)) % 4294967296 = 0) :
    (pcSite (3 + lead.length) A).Lands (processorMode mode)
      (lead ++ [(0x0F : UInt8), 0x01, (0x05 : UInt8) ||| (digit <<< 3), 0, 0, 0, 0]) addend ↔
        mode = .Mode64 := by
  rcases hd with rfl | rfl
  · exact @rip_lands_iff lead [] .need .two 0x01 2 addend A mode (.inl rfl) hl (by decide)
      (by decide) hA
  · exact @rip_lands_iff lead [] .need .two 0x01 3 addend A mode (.inl rfl) hl (by decide)
      (by decide) hA

theorem descriptor_shapes_places {digit : UInt8} (hd : digit = 2 ∨ digit = 3) (hl : SegLead lead)
    (hok : ∀ name addend, inst.operands = [.SymbolRef name addend] ∨
      inst.operands = [.MemRipRelSym name addend] →
      (SiteOk inst.mode inst.mnemonic inst.operands ↔ inst.mode = .Mode64))
    (h : descriptor_shapes digit inst = ⟨bs, .ok out⟩) : Places inst lead bs out := by
  unfold descriptor_shapes at h
  split at h
  · exact places_plain h
  · rename_i heq
    obtain ⟨rfl, rfl⟩ := sited_ok_iff.mp h
    exact places_pc (.inl rfl) (by rw [heq]; rfl) fun A hA =>
      (descriptor_lands_iff hd hl hA).trans (hok _ _ (.inl heq)).symm
  · rename_i heq
    obtain ⟨rfl, rfl⟩ := sited_ok_iff.mp h
    exact places_pc (.inl rfl) (by rw [heq]; rfl) fun A hA =>
      (descriptor_lands_iff hd hl hA).trans (hok _ _ (.inr heq)).symm
  · simp at h
  · simp at h

theorem encode_lgdt_places (hmn : inst.mnemonic = .Lgdt) (hl : SegLead lead)
    (h : encode_lgdt_inst inst = ⟨bs, .ok out⟩) : Places inst lead bs out := by
  unfold encode_lgdt_inst at h
  split at h
  · rename_i hmode heq
    obtain ⟨rfl, rfl⟩ := sited_ok_iff.mp h
    refine places_abs (by rw [heq]; rfl) (iff_of_true ?_ (by rw [hmn, heq, hmode]; trivial))
    rw [hmode]
    exact @disp_abs_lands lead [] [] false false .two 0x01 2 _ (by decide) (by decide) rfl hl
  · rename_i hne
    refine descriptor_shapes_places (.inl rfl) hl (fun name addend hops => ?_) h
    rw [hmn]
    rcases hops with heq | heq
    · cases hm : inst.mode with
      | Mode64 => rw [heq]; simp [SiteOk]
      | Mode32 => exact absurd heq (hne _ _ hm)
    · rw [heq]
      cases inst.mode <;> simp [SiteOk]

theorem encode_lidt_places (hmn : inst.mnemonic = .Lidt) (hl : SegLead lead)
    (h : encode_lidt_inst inst = ⟨bs, .ok out⟩) : Places inst lead bs out := by
  refine descriptor_shapes_places (.inr rfl) hl (fun name addend hops => ?_) h
  rw [hmn]
  rcases hops with heq | heq <;> rw [heq] <;> cases inst.mode <;> simp [SiteOk]

theorem encode_far_jmp_places (hmn : inst.mnemonic = .FarJmp) (hl : SegLead lead)
    (h : encode_far_jmp_inst inst = ⟨bs, .ok out⟩) : Places inst lead bs out := by
  unfold encode_far_jmp_inst at h
  split at h
  · exact places_plain h
  · exact places_plain h
  · simp at h
  · exact places_plain h
  · rename_i heq
    obtain ⟨rfl, rfl⟩ := sited_ok_iff.mp h
    refine places_abs (by rw [heq]; rfl) ((far_lands_iff hl _).trans ?_)
    rw [hmn, heq]
    cases inst.mode <;> simp [SiteOk]
  · simp at h
  · simp at h

/-! Moves. The store of an immediate through `rip` writes the immediate where
the displacement belongs, and the displacement is followed by four bytes. -/

theorem mov_rip_imm_misses {mode : InstrMode} {addend A : Int} (imm : Int64) (hl : SegLead lead)
    (hA : (A - (addend - 4)) % 4294967296 = 0) :
    ¬ (pcSite (3 + lead.length) A).Lands (processorMode mode)
      (lead ++ ([0x48, 0xC7, 0x05] ++ low 4 imm ++ [0, 0, 0, 0])) addend := by
  cases mode with
  | Mode64 =>
    have hold : lead ++ ([0x48, 0xC7, 0x05] ++ low 4 imm ++ [0, 0, 0, 0]) =
        (lead ++ [0x48, 0xC7, 0x05]) ++ low 4 imm ++ [0, 0, 0, 0] := by simp
    rw [hold, Site.lands_congr (length_low 4 imm) (Bytes.length_sle 4 0)
      (by simp [pcSite, Nat.add_comm])]
    have hnew : (lead ++ [0x48, 0xC7, 0x05]) ++ sle 4 0 ++ [0, 0, 0, 0] =
        lead ++ (dispForm [] true false .one 0xC7 0 [0, 0, 0, 0] 0).bytes := by
      rw [List.append_assoc, List.append_assoc]
      rfl
    rw [hnew]
    exact @pc_misses_imm lead [] [0, 0, 0, 0] true false .one 0xC7 0 addend A (by decide)
      (by decide) (by decide) (by decide) hl hA
  | Mode32 => exact misses_of_rex (.inl rfl) ⟨true, false, false, false⟩ hl _ 2 rfl addend

/-- The wide move between a register and `[rip + disp]`. -/
theorem mov_rip_places (op : UInt8) {reg : RegId} {addend : Int32}
    (hl : SegLead lead) (hlong : ∀ k < 8, tableOk .long [] true .one op true k 0 = true)
    (hprot : ∀ k < 8, tableOk .prot [] false .one op true k 0 = true)
    (h : (reg64_from reg >>= fun r => sited (op_rip [] .wide [op] r.id 0 [])
      (pc_site 3 name .PcRel32 addend)) = ⟨bs, .ok out⟩)
    (hsrc : source inst.operands = some (name, addend))
    (hok : SiteOk inst.mode inst.mnemonic inst.operands ↔ inst.mode = .Mode64) :
    Places inst lead bs out := by
  simp only [bind_ok_iff, reg64_from_ok_iff, sited_ok_iff] at h
  obtain ⟨_, r, _, ⟨rfl, _⟩, ⟨rfl, rfl⟩, rfl⟩ := h
  refine places_pc (.inl rfl) hsrc fun A hA => ?_
  rw [hok, List.nil_append]
  exact wide_rip_lands_iff hl hlong hprot hA

theorem encode_mov_shapes_places (hmn : inst.mnemonic = .Mov) (hl : SegLead lead)
    (hsym : inst.mode = .Mode32 → ∀ r n a, inst.operands ≠ [.Reg r, .SymbolRef n a] ∧
      inst.operands ≠ [.SymbolRef n a, .Reg r])
    (h : encode_mov_shapes inst = ⟨bs, .ok out⟩) : Places inst lead bs out := by
  have h64 : ∀ {r n a}, inst.operands = [.Reg r, .SymbolRef n a] ∨
      inst.operands = [.SymbolRef n a, .Reg r] → inst.mode = .Mode64 := by
    intro r n a hops
    cases hm : inst.mode with
    | Mode64 => rfl
    | Mode32 =>
      obtain ⟨h1, h2⟩ := hsym hm r n a
      exact (hops.elim h1 h2).elim
  unfold encode_mov_shapes at h
  dsimp only at h
  split at h <;> try exact places_plain h
  · rename_i heq
    split at h
    · simp at h
    · obtain ⟨rfl, rfl⟩ := sited_ok_iff.mp h
      exact places_pc (.inl rfl) (by rw [heq]; rfl) fun A hA =>
        iff_of_false (mov_rip_imm_misses _ hl hA)
          (by rw [hmn, heq]; cases inst.mode <;> simp [SiteOk])
  · rename_i heq
    exact mov_rip_places 0x8B hl (by decide) (by decide) h (by rw [heq]; rfl)
      (by rw [hmn, h64 (.inl heq), heq]; simp [SiteOk])
  · rename_i heq
    exact mov_rip_places 0x89 hl (by decide) (by decide) h (by rw [heq]; rfl)
      (by rw [hmn, h64 (.inr heq), heq]; simp [SiteOk])
  · rename_i heq
    exact mov_rip_places 0x8B hl (by decide) (by decide) h (by rw [heq]; rfl)
      (by rw [hmn, heq]; cases inst.mode <;> simp [SiteOk])
  · rename_i heq
    exact mov_rip_places 0x89 hl (by decide) (by decide) h (by rw [heq]; rfl)
      (by rw [hmn, heq]; cases inst.mode <;> simp [SiteOk])
  · split at h <;> simp at h

theorem encode_mov_mode32_places {x : Emit EncodeOutput} (hmn : inst.mnemonic = .Mov)
    (hmode : inst.mode = .Mode32) (hl : SegLead lead)
    (hx : encode_mov_mode32 inst.operands = some x) (h : x = ⟨bs, .ok out⟩) :
    Places inst lead bs out := by
  unfold encode_mov_mode32 at hx
  split at hx <;> simp only [Option.some.injEq, reduceCtorEq] at hx <;> subst hx
  · exact places_plain h
  · exact places_plain h
  · rename_i heq
    simp only [bind_ok_iff, reg64_from_ok_iff] at h
    obtain ⟨_, r, _, ⟨rfl, hr⟩, h, rfl⟩ := h
    obtain ⟨rfl, rfl⟩ := sited_ok_iff.mp h
    refine places_abs (by rw [heq]; rfl) ?_
    rw [hmn, heq, hmode]
    exact (abs32_lands_iff hl r (by decide)).trans (by simp [SiteOk, hr])
  · rename_i heq
    simp only [bind_ok_iff, reg64_from_ok_iff] at h
    obtain ⟨_, r, _, ⟨rfl, hr⟩, h, rfl⟩ := h
    obtain ⟨rfl, rfl⟩ := sited_ok_iff.mp h
    refine places_abs (by rw [heq]; rfl) ?_
    rw [hmn, heq, hmode]
    exact (abs32_lands_iff hl r (by decide)).trans (by simp [SiteOk, hr])
  · rename_i heq
    split at h
    · simp at h
    · obtain ⟨rfl, rfl⟩ := sited_ok_iff.mp h
      refine places_abs (by rw [heq]; rfl) (iff_of_true ?_ (by rw [hmn, heq, hmode]; trivial))
      rw [hmode]
      exact @disp_abs_lands lead [] (low 4 _) false false .one 0xC7 0 _
        (by rw [length_low]; decide) (by decide) rfl hl

theorem encode_mov_places (hmn : inst.mnemonic = .Mov) (hl : SegLead lead)
    (h : encode_mov inst = ⟨bs, .ok out⟩) : Places inst lead bs out := by
  rcases encode_mov_ok h with ⟨_, rfl⟩ | hg
  · intro s hs
    cases hs
  · unfold encode_mov_generic at hg
    split at hg
    · exact places_plain hg
    · cases hmode : inst.mode with
      | Mode32 =>
        simp only [hmode] at hg
        cases hx : encode_mov_mode32 inst.operands with
        | none =>
          rw [hx] at hg
          refine encode_mov_shapes_places hmn hl (fun _ r n a => ⟨?_, ?_⟩) hg <;>
          · intro heq
            rw [heq] at hx
            cases hx
        | some x =>
          rw [hx] at hg
          exact encode_mov_mode32_places hmn hmode hl hx hg
      | Mode64 =>
        simp only [hmode] at hg
        split at hg
        · simp at hg
        · exact encode_mov_shapes_places hmn hl (fun h => by simp [hmode] at h) hg

/-- The sized moves put the displacement where the source counts it. -/
theorem mov_rip_sized_lands_iff {width : IntWidth} {byte_op : UInt8} {off : Nat} (hl : SegLead lead)
    (hoff : off + 4 = (mov_rip_sized width byte_op op reg 0).length)
    (hbyte : ∀ k < 8, tableOk .long [] false .one byte_op true k 0 = true ∧
      tableOk .prot [] false .one byte_op true k 0 = true)
    (hword : ∀ k < 8, tableOk .long [0x66] false .one op true k 0 = true ∧
      tableOk .prot [0x66] false .one op true k 0 = true)
    (hlong : ∀ k < 8, tableOk .long [] false .one op true k 0 = true ∧
      tableOk .long [] true .one op true k 0 = true ∧
      tableOk .prot [] false .one op true k 0 = true) (hA : (A - (addend - 4)) % 4294967296 = 0) :
    (pcSite (off + lead.length) A).Lands (processorMode mode)
      (lead ++ mov_rip_sized width byte_op op reg 0) addend ↔ mode = .Mode64 := by
  have hlen : ∀ pre u c, (op_rip pre u (opBytes .one c) reg 0 []).length =
      ripFront pre u .one c reg + 4 := by
    intro pre u c
    rw [op_rip_zero]
    simp [ripFront, Form.bytes, dispForm, Arg.dispBytes, Slot.dispBytes]
  have hk : num reg % 8 < 8 := Nat.mod_lt _ (by decide)
  cases width
  case W8 =>
    obtain rfl : off = ripFront [] .need .one byte_op reg :=
      Nat.add_right_cancel (hoff.trans (hlen [] .need byte_op))
    exact rip_lands_iff (.inl rfl) hl (hbyte _ hk).1 (hbyte _ hk).2 hA
  case W16 =>
    obtain rfl : off = ripFront [0x66] .need .one op reg :=
      Nat.add_right_cancel (hoff.trans (hlen [0x66] .need op))
    exact rip_lands_iff (.inr rfl) hl (hword _ hk).1 (hword _ hk).2 hA
  case W32 =>
    obtain rfl : off = ripFront [] .need .one op reg :=
      Nat.add_right_cancel (hoff.trans (hlen [] .need op))
    exact rip_lands_iff (.inl rfl) hl (hlong _ hk).1 (hlong _ hk).2.2 hA
  case W64 =>
    obtain rfl : off = ripFront [] .wide .one op reg :=
      Nat.add_right_cancel (hoff.trans (hlen [] .wide op))
    exact rip_lands_iff (.inl rfl) hl (hlong _ hk).2.1 (hlong _ hk).2.2 hA

theorem rip_load_offset_eq (width : IntWidth) (reg : UInt8) :
    rip_load_offset width reg + 4 = (mov_reg_mem_rip_rel_sized width reg 0).length := by
  unfold rip_load_offset mov_reg_mem_rip_rel_sized mov_rip_sized op_rip RexUse.bytes i32_le
  cases width <;> cases high reg <;> simp

theorem encode_mov_sized_places {width : IntWidth} (hmn : inst.mnemonic = .MovSized width)
    (hl : SegLead lead) (h : encode_mov_sized inst width = ⟨bs, .ok out⟩) :
    Places inst lead bs out := by
  unfold encode_mov_sized at h
  split at h <;> try exact places_plain h
  · rename_i heq
    obtain ⟨rfl, rfl⟩ := sited_ok_iff.mp h
    refine places_pc (.inl rfl) (by rw [heq]; rfl) fun A hA => ?_
    refine (mov_rip_sized_lands_iff hl (rip_load_offset_eq width _) (by decide) (by decide)
      (by decide) hA).trans ?_
    rw [hmn, heq]
    cases inst.mode <;> simp [SiteOk]
  · rename_i heq
    obtain ⟨rfl, rfl⟩ := sited_ok_iff.mp h
    refine places_pc (.inl rfl) (by rw [heq]; rfl) fun A hA => ?_
    have hoff : ∀ reg : UInt8, (mov_rip_sized width 0x88 0x89 reg 0).length - 4 + 4 =
        (mov_rip_sized width 0x88 0x89 reg 0).length := by
      intro reg
      have : 4 ≤ (mov_rip_sized width 0x88 0x89 reg 0).length := by
        cases width <;> simp [mov_rip_sized, op_rip, i32_le]
      omega
    refine (mov_rip_sized_lands_iff hl (hoff _) (by decide) (by decide) (by decide) hA).trans ?_
    rw [hmn, heq]
    cases inst.mode <;> simp [SiteOk]
  · split at h <;> simp at h

/-! Vector moves. The register number picks the short or the long prefix, and
32-bit mode reads the long one as `les`. -/

theorem vex_short (m : Mode) (hop : op = 0x6F ∨ op = 0x7F) :
    VexLead m (vex_lead false false 0x0F 0x2 ++ [op])
      ⟨.two, op, Rex.none, some (vexTail 0xFE), 3⟩ where
  head := ⟨0xC5, [0xFE, op], rfl, by decide, by cases m <;> decide⟩
  reads rest := by cases m <;> rfl
  len := rfl
  table := by rcases hop with rfl | rfl <;> cases m <;> exact ⟨rfl, rfl, fun _ half => by cases half <;> rfl⟩

theorem vex_long (hop : op = 0x6F ∨ op = 0x7F) :
    VexLead .long (vex_lead true false 0x0F 0x2 ++ [op])
      ⟨.two, op, ⟨false, true, false, false⟩, some (vexTail 0x7E), 4⟩ where
  head := ⟨0xC4, [0x61, 0x7E, op], rfl, by decide, by decide⟩
  reads rest := rfl
  len := rfl
  table := by rcases hop with rfl | rfl <;> exact ⟨rfl, rfl, fun _ half => by cases half <;> rfl⟩

theorem vex_long_misses {r : Nat} (hl : SegLead lead) :
    ¬ (pcSite ((vex_lead true false 0x0F 0x2 ++ [op]).length + 1 + lead.length) A).Lands .prot
      (lead ++ (vex_lead true false 0x0F 0x2 ++ [op] ++ fields 0 r 5 :: sle 4 0)) addend := by
  refine misses_of_rest fun v => ?_
  obtain ⟨j, hj⟩ := decode_les_prot hl 0x61 0x7E op (fields 0 r 5 :: sle 4 v) (by decide)
    (by decide)
  refine ⟨j, op :: fields 0 r 5 :: sle 4 v, ?_, List.cons_ne_nil _ _⟩
  have hsplit : lead ++ (vex_lead true false 0x0F 0x2 ++ [op] ++ fields 0 r 5 :: sle 4 0) =
      (lead ++ [0xC4, 0x61, 0x7E, op, fields 0 r 5]) ++ sle 4 0 ++ [] := by
    simp [show vex_lead true false 0x0F 0x2 = [0xC4, 0x61, 0x7E] from rfl]
  have hpos : (pcSite ((vex_lead true false 0x0F 0x2 ++ [op]).length + 1 + lead.length) A).pos =
      (lead ++ [0xC4, 0x61, 0x7E, op, fields 0 r 5]).length := by
    simp [pcSite, show vex_lead true false 0x0F 0x2 = [0xC4, 0x61, 0x7E] from rfl]
    omega
  rw [hsplit, hpos, Bytes.patch_append _ _ _ _ (by simp)]
  simpa using hj

theorem vmovdqu_lands_iff (reg : UInt8) (hop : op = 0x6F ∨ op = 0x7F) (hl : SegLead lead)
    (hA : (A - (addend - 4)) % 4294967296 = 0) :
    (pcSite ((vex_lead (is_high reg) false 0x0F 0x2 ++
        [op, (0x05 : UInt8) ||| ((reg &&& 0x07) <<< 3)]).length + lead.length) A).Lands
        (processorMode mode)
        (lead ++ (vex_lead (is_high reg) false 0x0F 0x2 ++
          [op, (0x05 : UInt8) ||| ((reg &&& 0x07) <<< 3)] ++ i32_le 0)) addend ↔
      mode = .Mode64 := by
  have hk : num reg % 8 < 8 := Nat.mod_lt _ (by decide)
  have hmodrm : (0x05 : UInt8) ||| ((reg &&& 0x07) <<< 3) = fields 0 (num reg % 8) 5 := by
    rw [and_seven]
    exact pack_rm _ hk 5 (by decide)
  have hlen : ∀ vb : List UInt8, ∀ x : UInt8, (vb ++ [op, x]).length = (vb ++ [op]).length + 1 := by
    simp
  have hbytes : ∀ vb : List UInt8, ∀ x : UInt8, vb ++ [op, x] ++ i32_le 0 =
      vb ++ [op] ++ x :: sle 4 0 := by
    intro vb x
    rw [show i32_le 0 = sle 4 0 from rfl]
    simp
  rw [hlen, hbytes, hmodrm]
  cases is_high reg with
  | false =>
    cases mode with
    | Mode64 => exact iff_of_true (vex_lands (vex_short .long hop) hl hk hA) rfl
    | Mode32 => exact iff_of_false (vex_misses (vex_short .prot hop) hl hk hA) (by decide)
  | true =>
    cases mode with
    | Mode64 => exact iff_of_true (vex_lands (vex_long hop) hl hk hA) rfl
    | Mode32 => exact iff_of_false (vex_long_misses hl) (by decide)

theorem ymm_id_bytes {id : UInt8} {msg : String} (h : ymm_id id msg = ⟨bs, .ok reg⟩) : bs = [] := by
  unfold ymm_id at h
  split at h
  · exact (pure_ok_iff.mp h).1
  · simp at h

theorem vmovdqu_sym_places {msg : String} {ymm : UInt8} {addend : Int32}
    (hop : op = 0x6F ∨ op = 0x7F) (hl : SegLead lead)
    (h : vmovdqu_sym (vmovdqu_riprel op msg ymm 0) name addend = ⟨bs, .ok out⟩)
    (hsrc : source inst.operands = some (name, addend))
    (hok : SiteOk inst.mode inst.mnemonic inst.operands ↔ inst.mode = .Mode64) :
    Places inst lead bs out := by
  simp only [vmovdqu_sym, vmovdqu_riprel, bind_ok_iff, Emit.push_ok_iff, pure_ok_iff] at h
  obtain ⟨_, _, _, ⟨_, reg, _, hreg, ⟨_, _, _, rfl, ⟨rfl, rfl⟩, rfl⟩, rfl⟩, ⟨rfl, rfl⟩, rfl⟩ := h
  have hnil := ymm_id_bytes hreg
  subst hnil
  refine places_pc (.inl rfl) hsrc fun A hA => ?_
  rw [hok]
  simpa using vmovdqu_lands_iff reg hop hl hA

theorem encode_vmovdqu_places {is_store : Bool} (hmn : inst.mnemonic = .Vmovdqu is_store)
    (hl : SegLead lead) (h : encode_vmovdqu inst is_store = ⟨bs, .ok out⟩) :
    Places inst lead bs out := by
  unfold encode_vmovdqu at h
  split at h <;> try exact places_plain h
  · rename_i heq
    exact vmovdqu_sym_places (.inl rfl) hl h (by rw [heq]; rfl)
      (by rw [hmn, heq]; cases inst.mode <;> simp [SiteOk])
  · rename_i heq
    exact vmovdqu_sym_places (.inr rfl) hl h (by rw [heq]; rfl)
      (by rw [hmn, heq]; cases inst.mode <;> simp [SiteOk])
  · simp at h

/-! ## Every instruction -/

theorem encode_instruction_impl_places (hl : SegLead lead)
    (h : encode_instruction_impl inst = ⟨bs, .ok out⟩) : Places inst lead bs out := by
  unfold encode_instruction_impl at h
  split at h <;> rename_i hmn
  all_goals first
    | exact places_plain h
    | exact encode_mov_places hmn hl h
    | exact encode_mov_sized_places hmn hl h
    | exact encode_lea_places hmn hl h
    | exact encode_jmp_places hmn hl h
    | exact encode_jcc_places hmn hl h
    | exact encode_call_places hmn hl h
    | exact encode_lgdt_places hmn hl h
    | exact encode_lidt_places hmn hl h
    | exact encode_far_jmp_places hmn hl h
    | exact encode_vmovdqu_places hmn hl h

end

/-- A relocation or label site belongs to the symbolic operand. Filled in, its
field is the displacement of one instruction and points to the symbol plus the
addend, for every placement of symbol and code, exactly if `SiteOk` holds. -/
theorem site_lands_iff (inst : Instruction) (bs : List UInt8) (out : EncodeOutput)
    (h : encode_instruction inst = ⟨bs, .ok out⟩) (name : String) (s : Site)
    (hs : (name, s) ∈ out.sites) :
    ∃ addend, source (unwrapped inst.operands) = some (name, addend) ∧
      (s.Lands (processorMode inst.mode) bs addend.toInt ↔
        SiteOk inst.mode inst.mnemonic (unwrapped inst.operands)) := by
  obtain ⟨lead, bs', out', hl, himpl, rfl, rfl⟩ := encode_instruction_ok h
  exact encode_instruction_impl_places hl himpl (name, s) hs

/-- `mov gs:[table + 8], rcx` through `rip`: the prefix moves the site, and it
still lands. -/
theorem mov_gs_table_lands :
    ∃ addend, source (unwrapped [.MemSeg .Gs (.MemRipRelSym "table" 8), .Reg ⟨1⟩]) =
        some ("table", addend) ∧
      ((pcSite 4 4).Lands .long [0x65, 0x48, 0x89, 0x0D, 0, 0, 0, 0] addend.toInt ↔
        SiteOk .Mode64 .Mov (unwrapped [.MemSeg .Gs (.MemRipRelSym "table" 8), .Reg ⟨1⟩])) :=
  site_lands_iff ⟨.Mov, [.MemSeg .Gs (.MemRipRelSym "table" 8), .Reg ⟨1⟩], none, .Mode64⟩
    [0x65, 0x48, 0x89, 0x0D, 0, 0, 0, 0] ⟨[⟨4, "table", .PcRel32, 4⟩], []⟩ rfl "table" (pcSite 4 4)
    (List.mem_singleton.mpr rfl)

/-- `mov [flag], 1` through `rip`: the immediate stands in the field of the
displacement, so the site misses the symbol. -/
theorem mov_flag_imm_misses :
    encode_instruction ⟨.Mov, [.MemRipRelSym "flag" 0, .Imm64 1], none, .Mode64⟩ =
        ⟨[0x48, 0xC7, 0x05, 1, 0, 0, 0, 0, 0, 0, 0], .ok ⟨[⟨3, "flag", .PcRel32, -4⟩], []⟩⟩ ∧
      ¬ (RelocSite.site ⟨3, "flag", .PcRel32, -4⟩).Lands .long
        [0x48, 0xC7, 0x05, 1, 0, 0, 0, 0, 0, 0, 0] 0 := by
  refine ⟨rfl, ?_⟩
  have h := @mov_rip_imm_misses [] .Mode64 0 (-4) 1 (by simp [SegLead]) (by decide)
  have hlow : low 4 1 = [1, 0, 0, 0] := by decide
  rw [hlow] at h
  exact h

end paideia_as_encoder
