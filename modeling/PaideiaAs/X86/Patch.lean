-- Storing a relocated value into a four-byte field of an instruction: what the
-- field then points to.
import PaideiaAs.X86.Form
import Mathlib.Tactic.Linarith

namespace X86

open Bytes
open Option (bind_eq_bind bind_some)
open Form (insn under_bytes)
open Insn (immAt pointsTo)
open Mode (space)

/-! ## Sites -/

/-- A field to be filled in: where it stands, whether its value counts from the
instruction, and the value for a symbol at `S` in an instruction at `I`. -/
structure Site where
  pos : Nat
  pc : Bool
  value : Int → Int → Int

/-- What the field has to hold: the distance from the end of the instruction, or
the address itself. -/
def Site.target (s : Site) (len : Nat) (S I addend : Int) : Int :=
  if s.pc then S + addend - (I + len) else S + addend

/-- The symbol is near enough for a signed field of four bytes. In protected
mode every address is, since addresses wrap. -/
def Site.Reach (s : Site) (m : Mode) (len : Nat) (S I addend : Int) : Prop :=
  m = .long → -2147483648 ≤ s.target len S I addend ∧ s.target len S I addend < 2147483648

/-- Wherever symbol and instruction are placed, the filled-in bytes are one
instruction, and the field points to the symbol plus the addend. -/
def Site.Lands (s : Site) (m : Mode) (bs : List UInt8) (addend : Int) : Prop :=
  ∀ S I, s.Reach m bs.length S I addend →
    ∃ i t, disassemble m (patch bs s.pos (sle 4 (s.value S I))) = some [i] ∧
      i.pointsTo s.pos I = some t ∧ (t - (S + addend)) % m.space = 0

variable {addend : Int} {rest vb : List UInt8} {o : Opcode} {r : Nat}

/-- What stood in the field before plays no part. -/
theorem Site.lands_congr {s : Site} {m : Mode} {front old old' back : List UInt8}
    (hold : old.length = 4) (hold' : old'.length = 4) (hpos : s.pos = front.length) :
    s.Lands m (front ++ old ++ back) addend ↔ s.Lands m (front ++ old' ++ back) addend := by
  have hpatch : ∀ v, patch (front ++ old ++ back) s.pos (sle 4 v) =
      patch (front ++ old' ++ back) s.pos (sle 4 v) := by
    intro v
    rw [hpos, patch_append _ _ _ _ (by simp [hold]), patch_append _ _ _ _ (by simp [hold'])]
  have hlen : (front ++ old ++ back).length = (front ++ old' ++ back).length := by
    simp [hold, hold']
  simp only [Site.Lands, hpatch, hlen]

/-! ## Forms with a field -/

/-- A form with a four-byte field: the bytes around it do not depend on it. -/
structure Hole (m : Mode) (bs : List UInt8) (pos : Nat) (F : Int → Form) : Prop where
  split : ∃ front old back, bs = front ++ old ++ back ∧ old.length = 4 ∧ front.length = pos ∧
    ∀ d, (F d).bytes = front ++ sle 4 d ++ back
  fits : ∀ d, -2147483648 ≤ d → d < 2147483648 → (F d).Fits m

/-- What is stored: the value in the range of the field. -/
def stored (v : Int) : Int := v.bmod (256 ^ 4)

theorem stored_lo (v : Int) : -2147483648 ≤ stored v := by
  have := @Int.le_bmod v (256 ^ 4) (by decide)
  unfold stored
  omega

theorem stored_hi (v : Int) : stored v < 2147483648 := by
  have := @Int.bmod_lt v (256 ^ 4) (by decide)
  unfold stored
  omega

theorem stored_emod (v : Int) : stored v % 4294967296 = v % 4294967296 :=
  Int.bmod_emod

theorem stored_eq {v d : Int} (h : (v - d) % 4294967296 = 0) (hlo : -2147483648 ≤ d)
    (hhi : d < 2147483648) : stored v = d := by
  have h1 := stored_emod v
  have h2 := stored_lo v
  have h3 := stored_hi v
  omega

variable {m : Mode} {bs lead : List UInt8} {pos : Nat} {F : Int → Form}

theorem Hole.patched (hole : Hole m bs pos F) (lead : List UInt8) (v : Int) :
    patch (lead ++ bs) (pos + lead.length) (sle 4 v) = lead ++ (F (stored v)).bytes := by
  obtain ⟨front, old, back, rfl, hold, rfl, hF⟩ := hole.split
  have hlen : front.length + lead.length = (lead ++ front).length := by
    simp [Nat.add_comm]
  rw [hF, hlen, show lead ++ (front ++ old ++ back) = lead ++ front ++ old ++ back by simp,
    patch_append _ _ _ _ (by simp [hold]), stored, sle_bmod 4 v]
  simp

theorem Hole.disassemble (hole : Hole m bs pos F) (hl : SegLead lead) (v : Int) :
    disassemble m (patch (lead ++ bs) (pos + lead.length) (sle 4 v)) =
      some [((F (stored v)).under lead).insn m] := by
  have hfits := (hole.fits _ (stored_lo v) (stored_hi v)).under hl
  rw [hole.patched, ← under_bytes]
  exact disassemble_form hfits

/-! ## Fields that land -/

section

variable {addend A : Int}

/-- The value of a biased PC-relative site: the field ends four bytes after its
start, and the addend may have wrapped. -/
def pcSite (pos : Nat) (A : Int) : Site := ⟨pos, true, fun S I => S + A - (I + pos)⟩

def absSite (pos : Nat) (A : Int) : Site := ⟨pos, false, fun S _ => S + A⟩

variable {G : Int → Insn}

/-- The field counts from the end of the instruction, where it ends itself. -/
theorem pc_lands (hread : ∀ v, disassemble m (patch bs pos (sle 4 v)) = some [G (stored v)])
    (hend : bs.length = pos + 4) (hA : (A - (addend - 4)) % 4294967296 = 0)
    (hpoint : ∀ d I, -2147483648 ≤ d → d < 2147483648 →
      (G d).pointsTo pos I = some (I + bs.length + d)) :
    (pcSite pos A).Lands m bs addend := by
  intro S I hreach
  refine ⟨_, _, hread _, hpoint _ I (stored_lo _) (stored_hi _), ?_⟩
  simp only [pcSite, Site.Reach, Site.target, if_true] at hreach ⊢
  have hstored := stored_emod (S + A - (I + pos))
  cases m with
  | long =>
    have hd := hreach rfl
    rw [@stored_eq (S + A - (I + pos)) (S + addend - (I + bs.length)) (by omega) hd.1 hd.2]
    simp only [space]
    omega
  | prot =>
    simp only [space]
    omega

theorem abs_lands (hread : ∀ v, disassemble m (patch bs pos (sle 4 v)) = some [G (stored v)])
    (hpoint : ∀ d I, ∃ t, (G d).pointsTo pos I = some t ∧ (t - d) % m.space = 0) :
    (absSite pos addend).Lands m bs addend := by
  intro S I hreach
  obtain ⟨t, ht, htd⟩ := hpoint (stored (S + addend)) I
  refine ⟨_, t, hread _, ht, ?_⟩
  simp only [absSite, Site.Reach, Site.target, Bool.false_eq_true, if_false] at hreach ⊢
  have hstored := stored_emod (S + addend)
  cases m with
  | long =>
    have hd := hreach rfl
    rw [@stored_eq (S + addend) (S + addend) (by omega) hd.1 hd.2] at htd
    exact htd
  | prot =>
    simp only [space] at htd ⊢
    omega

end

/-! ## The shapes of a field -/

section

variable {pre imm : List UInt8} {w force : Bool} {map : OpMap} {op : UInt8} {reg : Nat}

/-- A displacement of four bytes and no register in the address. -/
def dispForm (pre : List UInt8) (w force : Bool) (map : OpMap) (op : UInt8) (reg : Nat)
    (imm : List UInt8) (d : Int) : Form :=
  ⟨pre, w, force, map, op, .rm reg (.disp32 d), imm⟩

theorem hole_disp {m : Mode}
    (htable : tableOk m pre w map op true (reg % 8) imm.length = true) (hreg : reg < 16)
    (hrex : m = .prot → (dispForm pre w force map op reg imm 0).rex = none) :
    Hole m (dispForm pre w force map op reg imm 0).bytes
      (dispForm pre w force map op reg imm 0).front.length
      (dispForm pre w force map op reg imm) where
  split := ⟨_, sle 4 0, imm, rfl, by simp, rfl, fun _ => rfl⟩
  fits := fun _ hlo hhi => ⟨htable, ⟨hreg, ⟨hlo, hhi⟩⟩, hrex⟩

theorem dispForm_head (m : Mode) (d : Int) (lead : List UInt8) :
    (((dispForm pre w force map op reg imm d).under lead).insn m).head =
      (dispForm pre w force map op reg imm 0).front.length + lead.length := by
  simp only [insn, Form.under_front, List.length_append, Nat.add_comm]
  rfl

theorem dispForm_pointsTo_long (d I : Int) (lead : List UInt8) :
    (((dispForm pre w force map op reg imm d).under lead).insn .long).pointsTo
        ((dispForm pre w force map op reg imm 0).front.length + lead.length) I =
      some (I + (lead ++ (dispForm pre w force map op reg imm 0).bytes).length + d) := by
  have hsize : (lead ++ (dispForm pre w force map op reg imm 0).bytes).length =
      (lead ++ (dispForm pre w force map op reg imm d).bytes).length := by
    simp [dispForm, Form.bytes, Form.front, Arg.dispBytes, Slot.dispBytes, Form.rex, Form.bits,
      Form.opByte, Arg.r, Arg.x, Arg.b, Arg.lead, Arg.opByte, Slot.x, Slot.b, Slot.lead]
  unfold pointsTo
  rw [dispForm_head, if_pos ⟨rfl, length_sle 4 d⟩, hsize, ← under_bytes, ← Form.insn_size .long]
  rfl

theorem dispForm_pointsTo_prot (d I : Int) (lead : List UInt8) :
    (((dispForm pre w force map op reg imm d).under lead).insn .prot).pointsTo
        ((dispForm pre w force map op reg imm 0).front.length + lead.length) I = some d := by
  unfold pointsTo
  rw [dispForm_head, if_pos ⟨rfl, length_sle 4 d⟩]
  rfl

theorem disp_abs_lands {addend : Int}
    (htable : tableOk .prot pre w map op true (reg % 8) imm.length = true) (hreg : reg < 16)
    (hrex : (dispForm pre w force map op reg imm 0).rex = none) (hl : SegLead lead) :
    (absSite ((dispForm pre w force map op reg imm 0).front.length + lead.length) addend).Lands
      .prot (lead ++ (dispForm pre w force map op reg imm 0).bytes) addend := by
  have hole := hole_disp htable hreg (fun _ => hrex)
  exact abs_lands (fun v => hole.disassemble hl v)
    (fun d I => ⟨d, dispForm_pointsTo_prot d I lead, by simp⟩)

/-- A scaled index and a displacement of four bytes. -/
def indexForm (op : UInt8) (reg i s : Nat) (d : Int) : Form :=
  ⟨[], false, false, .one, op, .rm reg (.noBase i s d), []⟩

theorem hole_index {i s : Nat}
    (htable : tableOk m [] false .one op true (reg % 8) 0 = true) (hreg : reg < 16) (hi : i < 16)
    (hs : s < 4) (hrex : m = .prot → (indexForm op reg i s 0).rex = none) :
    Hole m (indexForm op reg i s 0).bytes (indexForm op reg i s 0).front.length
      (indexForm op reg i s) where
  split := ⟨_, sle 4 0, [], rfl, by simp, rfl, fun _ => rfl⟩
  fits := fun _ hlo hhi => ⟨htable, ⟨hreg, ⟨hi, hs, hlo, hhi⟩⟩, hrex⟩

theorem indexForm_pointsTo {i s : Nat} (m : Mode) (d I : Int) (lead : List UInt8) :
    (((indexForm op reg i s d).under lead).insn m).pointsTo
        ((indexForm op reg i s 0).front.length + lead.length) I = some d := by
  have hhead : (((indexForm op reg i s d).under lead).insn m).head =
      (indexForm op reg i s 0).front.length + lead.length := by
    simp only [insn, Form.under_front, List.length_append, Nat.add_comm]
    rfl
  unfold pointsTo
  rw [hhead, if_pos ⟨rfl, length_sle 4 d⟩]
  rfl

/-- An opcode and a displacement. -/
def relForm (map : OpMap) (op : UInt8) (d : Int) : Form :=
  ⟨[], false, false, map, op, .none, sle 4 d⟩

theorem hole_rel (htable : tableOk m [] false map op false 0 4 = true) :
    Hole m (relForm map op 0).bytes (opBytes map op).length (relForm map op) where
  split := ⟨opBytes map op, sle 4 0, [], by simp [relForm, Form.bytes, Form.front, Form.rex,
      Form.opByte, Arg.opByte, Arg.r, Arg.x, Arg.b, Arg.lead, Arg.dispBytes], by simp, rfl,
    fun d => by simp [relForm, Form.bytes, Form.front, Form.rex, Form.opByte, Arg.opByte, Arg.r,
      Arg.x, Arg.b, Arg.lead, Arg.dispBytes]⟩
  fits := fun d _ _ => ⟨by simpa [relForm, Form.opByte, Arg.opByte, Arg.isRm, Arg.digit] using htable,
    trivial, fun _ => rfl⟩

theorem relForm_pointsTo (m : Mode) (hrel : isRel map op = true) {d : Int}
    (hlo : -2147483648 ≤ d) (hhi : d < 2147483648) (I : Int) (lead : List UInt8) :
    (((relForm map op d).under lead).insn m).pointsTo ((opBytes map op).length + lead.length) I =
      some (I + (lead ++ (relForm map op 0).bytes).length + d) := by
  have hbytes : ∀ e, (relForm map op e).bytes = opBytes map op ++ sle 4 e := by
    intro e
    simp [relForm, Form.bytes, Form.front, Form.rex, Form.opByte, Arg.opByte, Arg.r, Arg.x, Arg.b,
      Arg.lead, Arg.dispBytes]
  have himm : (((relForm map op d).under lead).insn m).immAt =
      (opBytes map op).length + lead.length := by
    simp [immAt, insn, Form.under, relForm, Form.front, Form.rex, Form.opByte,
      Arg.opByte, Arg.r, Arg.x, Arg.b, Arg.lead, Arg.dispBytes, Nat.add_comm]
  have hsize : (((relForm map op d).under lead).insn m).size =
      (lead ++ (relForm map op 0).bytes).length := by
    rw [Form.insn_size, under_bytes, hbytes, hbytes]
    simp
  unfold pointsTo
  rw [if_neg (by simp [insn, Form.under, relForm, Arg.dispBytes]), if_pos himm.symm, hsize]
  simp [insn, Form.under, relForm, Form.opByte, Arg.opByte, hrel, signed_disp32 hlo hhi]

/-- The direct far jump: the offset and then the selector. -/
def farForm (selector : List UInt8) (d : Int) : Form :=
  ⟨[], false, false, .one, 0xEA, .none, sle 4 d ++ selector⟩

theorem hole_far {selector : List UInt8} (hs : selector.length = 2) :
    Hole .prot (farForm selector 0).bytes 1 (farForm selector) where
  split := ⟨[0xEA], sle 4 0, selector, by simp [farForm, Form.bytes, Form.front, Form.rex,
      Form.opByte, Arg.opByte, Arg.r, Arg.x, Arg.b, Arg.lead, Arg.dispBytes, opBytes], by simp, rfl,
    fun d => by simp [farForm, Form.bytes, Form.front, Form.rex, Form.opByte, Arg.opByte, Arg.r,
      Arg.x, Arg.b, Arg.lead, Arg.dispBytes, opBytes]⟩
  fits := fun d _ _ => by
    refine ⟨?_, trivial, fun _ => rfl⟩
    show tableOk .prot [] false .one 0xEA false 0 (sle 4 d ++ selector).length = true
    rw [List.length_append, length_sle, hs]
    decide

theorem farForm_pointsTo {selector : List UInt8} {d : Int} (I : Int) (lead : List UInt8) :
    ∃ t, (((farForm selector d).under lead).insn .prot).pointsTo (1 + lead.length) I = some t ∧
      (t - d) % Mode.prot.space = 0 := by
  have himm : (((farForm selector d).under lead).insn .prot).immAt = 1 + lead.length := by
    simp [immAt, insn, Form.under, farForm, Form.front, Form.rex, Form.opByte,
      Arg.opByte, Arg.r, Arg.x, Arg.b, Arg.lead, Arg.dispBytes, opBytes, Nat.add_comm]
  refine ⟨(ofLe (sle 4 d) : Int), ?_, ?_⟩
  · unfold pointsTo
    rw [if_neg (by simp [insn, Form.under, farForm, Arg.dispBytes]), if_pos himm.symm]
    have htake : (sle 4 d ++ selector).take 4 = sle 4 d := List.take_left' (length_sle 4 d)
    simp [insn, Form.under, farForm, Form.opByte, Arg.opByte, isRel, htake]
  · rw [ofLe_sle]
    simp only [space]
    omega

end

/-! ## Fields that do not land -/

section

variable {pre imm : List UInt8} {w force : Bool} {map : OpMap} {op : UInt8} {reg : Nat}
  {addend A : Int}

/-- A value that counts from the instruction misses where the field is the
address itself. -/
theorem pc_misses_of_abs {G : Int → Insn}
    (hread : ∀ v, disassemble .prot (patch bs pos (sle 4 v)) = some [G (stored v)])
    (hpoint : ∀ d I, -2147483648 ≤ d → d < 2147483648 → (G d).pointsTo pos I = some d)
    (hA : (A - (addend - 4)) % 4294967296 = 0) : ¬ (pcSite pos A).Lands .prot bs addend := by
  intro h
  -- one byte off: the instruction stands where the field holds `S + addend - 1`
  obtain ⟨i, t, hi, ht, hmod⟩ := h 0 (-3 - (pos : Int)) (fun h => by cases h)
  simp only [pcSite] at hi ht
  rw [hread, Option.some.injEq, List.singleton_inj] at hi
  rw [← hi, hpoint _ _ (stored_lo _) (stored_hi _), Option.some.injEq] at ht
  simp only [space] at hmod
  have := stored_emod (0 + A - (-3 - (pos : Int) + pos))
  omega

theorem pc_misses_prot
    (htable : tableOk .prot pre w map op true (reg % 8) imm.length = true) (hreg : reg < 16)
    (hrex : (dispForm pre w force map op reg imm 0).rex = none) (hl : SegLead lead)
    (hA : (A - (addend - 4)) % 4294967296 = 0) :
    ¬ (pcSite ((dispForm pre w force map op reg imm 0).front.length + lead.length) A).Lands .prot
        (lead ++ (dispForm pre w force map op reg imm 0).bytes) addend := by
  have hole := hole_disp htable hreg (fun _ => hrex)
  exact pc_misses_of_abs (fun v => hole.disassemble hl v)
    (fun d I _ _ => dispForm_pointsTo_prot d I lead) hA

/-- An immediate behind the field moves the end of the instruction away from
it. -/
theorem pc_misses_imm
    (htable : tableOk .long pre w map op true (reg % 8) imm.length = true) (hreg : reg < 16)
    (himm : 0 < imm.length) (himm' : imm.length < 4294967296) (hl : SegLead lead)
    (hA : (A - (addend - 4)) % 4294967296 = 0) :
    ¬ (pcSite ((dispForm pre w force map op reg imm 0).front.length + lead.length) A).Lands .long
        (lead ++ (dispForm pre w force map op reg imm 0).bytes) addend := by
  intro h
  have hole := @hole_disp pre imm w force map op reg .long htable hreg (fun h => by cases h)
  have hlen : (lead ++ (dispForm pre w force map op reg imm 0).bytes).length =
      lead.length + (dispForm pre w force map op reg imm 0).front.length + 4 + imm.length := by
    simp [Form.bytes, dispForm, Arg.dispBytes, Slot.dispBytes, Nat.add_assoc]
  obtain ⟨i, t, hi, ht, hmod⟩ := h
    (((lead ++ (dispForm pre w force map op reg imm 0).bytes).length : Int) - addend) 0
    (fun _ => by simp only [Site.target, pcSite, if_true]; constructor <;> omega)
  simp only [pcSite] at hi ht
  rw [hole.disassemble hl, Option.some.injEq, List.singleton_inj] at hi
  subst hi
  rw [dispForm_pointsTo_long, Option.some.injEq] at ht
  subst ht
  simp only [space] at hmod
  have hlo := stored_lo (((lead ++ (dispForm pre w force map op reg imm 0).bytes).length : Int) -
    addend + A - (0 + ((dispForm pre w force map op reg imm 0).front.length + lead.length : Nat)))
  have hhi := stored_hi (((lead ++ (dispForm pre w force map op reg imm 0).bytes).length : Int) -
    addend + A - (0 + ((dispForm pre w force map op reg imm 0).front.length + lead.length : Nat)))
  have := stored_emod (((lead ++ (dispForm pre w force map op reg imm 0).bytes).length : Int) -
    addend + A - (0 + ((dispForm pre w force map op reg imm 0).front.length + lead.length : Nat)))
  omega

end

theorem disassemble_single {i j : Insn}
    (h : disassemble m bs = some [i]) (hdec : decode m bs = some (j, rest)) : rest = [] := by
  rcases bs with _ | ⟨b, bs⟩
  · simp [disassemble, decodeAll] at h
  · simp only [disassemble, List.length_cons, decodeAll, hdec, bind_eq_bind,
      bind_some] at h
    rcases rest with _ | ⟨c, rest⟩
    · rfl
    · exfalso
      cases hk : bs.length with
      | zero => simp [hk, decodeAll] at h
      | succ k =>
        rw [hk] at h
        simp only [decodeAll, bind_eq_bind] at h
        rcases hd : decode m (c :: rest) with _ | ⟨j', rest'⟩
        · simp [hd] at h
        · rcases ha : decodeAll m k rest' with _ | is
          · simp [hd, ha] at h
          · simp [hd, ha] at h

theorem decode_rex_prot {pre : List UInt8} (hpre : pre = [] ∨ pre = [0x66]) (p : Rex)
    (hl : SegLead lead) (rest : List UInt8) :
    ∃ j, decode .prot (lead ++ (pre ++ p.byte :: rest)) = some (j, rest) := by
  have hdec := decode_form ((fits_rex_prot hpre p).under hl) rest
  rw [under_bytes, bytes_rex_prot, List.append_assoc, List.append_assoc] at hdec
  exact ⟨_, hdec⟩

/-- Bytes that start with a whole instruction and go on are not one. -/
theorem misses_of_rest {s : Site}
    (h : ∀ v, ∃ j rest, decode .prot (patch bs s.pos (sle 4 v)) = some (j, rest) ∧ rest ≠ []) :
    ¬ s.Lands .prot bs addend := by
  intro hlands
  obtain ⟨i, t, hi, _⟩ := hlands 0 0 (fun h => by cases h)
  obtain ⟨j, rest, hj, hne⟩ := h (s.value 0 0)
  exact hne (disassemble_single hi hj)

theorem patch_ne_nil (rest : List UInt8) (k : Nat) (v : Int) : patch rest k (sle 4 v) ≠ [] := by
  intro h
  have := congrArg List.length h
  simp [patch] at this

theorem misses_of_rex {pre : List UInt8} (hpre : pre = [] ∨ pre = [0x66]) (p : Rex)
    (hl : SegLead lead) (s : Site) (k : Nat) (hpos : s.pos = pre.length + 1 + k + lead.length)
    (addend : Int) : ¬ s.Lands .prot (lead ++ (pre ++ p.byte :: rest)) addend := by
  refine misses_of_rest fun v => ?_
  have hpatch : patch (lead ++ (pre ++ p.byte :: rest)) s.pos (sle 4 v) =
      lead ++ (pre ++ p.byte :: patch rest k (sle 4 v)) := by
    have hfront : lead ++ (pre ++ p.byte :: rest) = (lead ++ pre ++ [p.byte]) ++ rest := by simp
    have hlen : s.pos = (lead ++ pre ++ [p.byte]).length + k := by
      simp [hpos]; omega
    rw [hfront, hlen, patch_add]
    simp
  obtain ⟨j, hj⟩ := decode_rex_prot hpre p hl (patch rest k (sle 4 v))
  exact ⟨j, _, hpatch ▸ hj, patch_ne_nil rest k v⟩

/-- The far jump is gone from 64-bit mode. -/
theorem misses_far_long (hl : SegLead lead) (s : Site) (k : Nat)
    (hpos : s.pos = 1 + k + lead.length) (addend : Int) (hreach : ∃ S I,
      s.Reach .long (lead ++ 0xEA :: rest).length S I addend) :
    ¬ s.Lands .long (lead ++ 0xEA :: rest) addend := by
  intro h
  obtain ⟨S, I, hr⟩ := hreach
  obtain ⟨i, t, hi, _⟩ := h S I hr
  have hpatch : patch (lead ++ 0xEA :: rest) s.pos (sle 4 (s.value S I)) =
      lead ++ 0xEA :: patch rest k (sle 4 (s.value S I)) := by
    have hlen : s.pos = (lead ++ [0xEA]).length + k := by
      simp [hpos]; omega
    rw [show lead ++ 0xEA :: rest = (lead ++ [0xEA]) ++ rest by simp, hlen, patch_add]
    simp
  have hdec : ∀ tail, decode .long (lead ++ 0xEA :: tail) = none := by
    intro tail
    obtain ⟨htake, hdrop⟩ := prefixes_split hl.all (by decide : isPrefix 0xEA = false) tail
    unfold decode
    rw [htake, hdrop]
    rfl
  rw [hpatch] at hi
  rcases lead with _ | ⟨b, lead⟩
  · have := hdec (patch rest k (sle 4 (s.value S I)))
    simp only [List.nil_append] at this hi
    simp [disassemble, decodeAll, this] at hi
  · have := hdec (patch rest k (sle 4 (s.value S I)))
    simp only [List.cons_append] at this hi
    simp [disassemble, decodeAll, this] at hi

/-! ## VEX instructions with a displacement of four bytes -/

/-- The bytes of a VEX prefix and opcode, and what the decoder makes of them. -/
structure VexLead (m : Mode) (vb : List UInt8) (o : Opcode) : Prop where
  head : ∃ c cs, vb = c :: cs ∧ isPrefix c = false ∧ isRex m c = false
  reads : ∀ rest, takeOpcode m none (vb ++ rest) = some (o, rest)
  len : o.len = vb.length
  table : legal m o.map o.byte = true ∧ hasModRM o.map o.byte = true ∧
    ∀ k half, immLen m o.map o.byte k half o.bits.w = 0

/-- Behind the prefix and the opcode only the operand is read. -/
theorem decode_vex_operand {m : Mode} {vb : List UInt8} {o : Opcode} (h : VexLead m vb o)
    (hl : SegLead lead) (bs : List UInt8) :
    decode m (lead ++ (vb ++ bs)) = (takeModRM m o.bits bs).map fun t =>
      (⟨lead, none, o.vex, o.map, o.byte, some t.1.modrm, lead.length + vb.length + t.1.len,
        t.1.disp, []⟩, t.2) := by
  obtain ⟨c, cs, rfl, hcp, hcr⟩ := h.head
  obtain ⟨htake, hdrop⟩ := prefixes_split hl.all hcp (cs ++ bs)
  obtain ⟨hlegal, hmod, himm⟩ := h.table
  have h67 : lead.contains 0x67 = false := by
    simpa using hl.contains (by decide : (0x67 : UInt8) ≠ 0x64) (by decide) []
  have hreads := h.reads bs
  rw [List.cons_append] at hreads
  unfold decode
  rw [List.cons_append, htake, hdrop]
  simp only [takeRex, hcr, Bool.false_eq_true, if_false, hreads, bind_eq_bind,
    bind_some, hlegal, h67, Bool.not_true, Bool.and_false, Bool.or_self, takeOperand, hmod,
    if_true]
  cases takeModRM m o.bits bs with
  | none => rfl
  | some t =>
    simp only [Option.map_some, bind_some, himm, takeN, Nat.zero_le, if_true, List.take_zero,
      List.drop_zero, Option.toList_none, List.length_nil, Nat.add_zero, Option.getD_some, h.len]

theorem decode_vex (h : VexLead m vb o) (hl : SegLead lead) (hr : r < 8) (d : Int) :
    decode m (lead ++ (vb ++ fields 0 r 5 :: sle 4 d)) = some (⟨lead, none, o.vex, o.map, o.byte,
        some ⟨ext r o.bits.r, disp32Place m (signed (sle 4 d))⟩, lead.length + vb.length + 1,
        sle 4 d, []⟩, []) := by
  have hmodrm := takeModRM_disp32 m o.bits hr d []
  rw [List.append_nil] at hmodrm
  rw [decode_vex_operand h hl, hmodrm]
  rfl

theorem disassemble_of_decode {i : Insn}
    (h : decode m bs = some (i, [])) : disassemble m bs = some [i] := by
  rcases bs with _ | ⟨b, bs⟩
  · cases m <;> cases h
  · simp only [disassemble, List.length_cons, decodeAll, h, bind_eq_bind, bind_some]

/-- The decoded VEX instruction with the displacement `d`. -/
def vexInsn (m : Mode) (lead vb : List UInt8) (o : Opcode) (r : Nat) (d : Int) : Insn :=
  ⟨lead, none, o.vex, o.map, o.byte, some ⟨ext r o.bits.r, disp32Place m (signed (sle 4 d))⟩,
    lead.length + vb.length + 1, sle 4 d, []⟩

theorem disassemble_vex (h : VexLead m vb o) (hl : SegLead lead) (hr : r < 8) (v : Int) :
    disassemble m (patch (lead ++ (vb ++ fields 0 r 5 :: sle 4 0)) (vb.length + 1 + lead.length)
      (sle 4 v)) = some [vexInsn m lead vb o r (stored v)] := by
  have hsplit : lead ++ (vb ++ fields 0 r 5 :: sle 4 0) =
      (lead ++ vb ++ [fields 0 r 5]) ++ sle 4 0 ++ [] := by simp
  have hpos : vb.length + 1 + lead.length = (lead ++ vb ++ [fields 0 r 5]).length := by
    simp; omega
  have hdec := decode_vex h hl hr (stored v)
  rw [stored, sle_bmod 4 v] at hdec
  rw [hsplit, hpos, patch_append _ _ _ _ (by simp)]
  apply disassemble_of_decode
  simp only [List.append_nil, List.append_assoc, List.cons_append, List.nil_append]
  rw [hdec]
  simp only [vexInsn, stored, sle_bmod 4 v]

theorem vexInsn_pointsTo {d : Int} (hlo : -2147483648 ≤ d) (hhi : d < 2147483648) (I : Int) :
    (vexInsn m lead vb o r d).pointsTo (vb.length + 1 + lead.length) I =
      match m with
      | .long => some (I + (lead ++ (vb ++ fields 0 r 5 :: sle 4 0)).length + d)
      | .prot => some d := by
  unfold pointsTo
  rw [if_pos ⟨by simp [vexInsn]; omega, by simp [vexInsn]⟩]
  cases m with
  | long =>
    simp [vexInsn, disp32Place, signed_disp32 hlo hhi, Insn.size, immAt]
    omega
  | prot => simp [vexInsn, disp32Place, signed_disp32 hlo hhi]

theorem vex_lands (h : VexLead .long vb o) (hl : SegLead lead)
    (hr : r < 8) {A : Int} (hA : (A - (addend - 4)) % 4294967296 = 0) :
    (pcSite (vb.length + 1 + lead.length) A).Lands .long
      (lead ++ (vb ++ fields 0 r 5 :: sle 4 0)) addend :=
  pc_lands (fun v => disassemble_vex h hl hr v) (by simp; omega) hA
    (fun _ I hlo hhi => vexInsn_pointsTo hlo hhi I)

theorem vex_misses (h : VexLead .prot vb o) (hl : SegLead lead)
    (hr : r < 8) {A : Int} (hA : (A - (addend - 4)) % 4294967296 = 0) :
    ¬ (pcSite (vb.length + 1 + lead.length) A).Lands .prot
      (lead ++ (vb ++ fields 0 r 5 :: sle 4 0)) addend :=
  pc_misses_of_abs (fun v => disassemble_vex h hl hr v)
    (fun _ I hlo hhi => vexInsn_pointsTo hlo hhi I) hA

/-- `C4` before a byte below `C0` is `les` in protected mode. -/
theorem decode_les_prot (hl : SegLead lead) (p q b : UInt8) (rest : List UInt8)
    (hp : p.toNat / 64 = 1) (hrm : p.toNat % 8 ≠ 4) :
    ∃ j, decode .prot (lead ++ 0xC4 :: p :: q :: b :: rest) = some (j, b :: rest) := by
  obtain ⟨htake, hdrop⟩ := prefixes_split hl.all (by decide : isPrefix 0xC4 = false)
    (p :: q :: b :: rest)
  have h67 : lead.contains 0x67 = false := by
    simpa using hl.contains (by decide : (0x67 : UInt8) ≠ 0x64) (by decide) []
  have hlt : p < 0xC0 := by
    rw [UInt8.lt_iff_toNat_lt]
    show p.toNat < 192
    omega
  refine ⟨⟨lead, none, none, .one, 0xC4, some ⟨ext (p.toNat / 8 % 8) false,
    .mem ⟨some (ext (p.toNat % 8) false), none, signed [q]⟩⟩, lead.length + 2, [q], []⟩, ?_⟩
  have hrex : takeRex .prot (0xC4 :: p :: q :: b :: rest) = (none, 0xC4 :: p :: q :: b :: rest) := rfl
  have hopc : takeOpcode .prot none (0xC4 :: p :: q :: b :: rest) =
      some (⟨.one, 0xC4, Rex.none, none, 1⟩, p :: q :: b :: rest) := by
    simp only [takeOpcode, hlt, and_self, if_true]
  have hmodrm : takeModRM .prot Rex.none (p :: q :: b :: rest) =
      some (⟨⟨ext (p.toNat / 8 % 8) false,
        .mem ⟨some (ext (p.toNat % 8) false), none, signed [q]⟩⟩, 1, [q]⟩, b :: rest) := by
    simp [takeModRM, hp, hrm, dispLen, takeN, Rex.none]
  have himm (g : Nat) (half : Bool) : immLen .prot .one 0xC4 g half Rex.none.w = 0 := by
    cases half <;> rfl
  unfold decode
  rw [htake, hdrop, hrex]
  simp only [hopc, bind_eq_bind, bind_some, takeOperand, himm, h67, hmodrm,
    (by decide : legal .prot .one 0xC4 = true), (by decide : hasModRM .one 0xC4 = true), takeN]
  simp

end X86
