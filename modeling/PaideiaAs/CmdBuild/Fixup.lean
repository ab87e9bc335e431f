-- `cmd_build/fixup.rs` of `paideia-as`: the branches of `.text` are filled in
-- once all labels have their offsets.
import PaideiaAs.Encoder.Types
import PaideiaAs.Lib.Outcome
import PaideiaAs.Lib.Patching

namespace paideia_as.cmd_build

open paideia_as_encoder Bytes

/-- The labels with their offsets in `.text`. -/
abbrev Labels := String → Option UInt32

/-- From the end of the field to the label. -/
def displacement (label_offset : UInt32) (fixup : LabelFixup) : Int :=
  label_offset.toNat - (fixup.byte_offset + 4)

/-- One fixup. The displacement is cut to an `i32`, and a field that is not all
in the buffer stays as it is. -/
def patch_label_fixup (buffer : List UInt8) (fixup : LabelFixup) (label_offset : UInt32) :
    List UInt8 :=
  let disp_i32 := Int32.ofInt (displacement label_offset fixup)
  let offset := fixup.byte_offset
  if offset + 4 ≤ buffer.length then patch buffer offset (sle 4 disp_i32.toInt) else buffer

/-- `patch_label_fixups`: a label that is not known is a panic. -/
def patch_label_fixups (labels : Labels) : List UInt8 → List LabelFixup → Outcome (List UInt8)
  | buffer, [] => .ok buffer
  | buffer, fixup :: rest => do
    let label_offset ← Outcome.expect (labels fixup.label_name)
    patch_label_fixups labels (patch_label_fixup buffer fixup label_offset) rest

/-! ## Fields -/

/-- The offset of the label of a fixup. -/
def targetOf (labels : Labels) (fixup : LabelFixup) : UInt32 :=
  (labels fixup.label_name).getD 0

/-- The four bytes that a fixup is about, with the distance to its label. -/
def fieldOf (labels : Labels) (fixup : LabelFixup) : Field :=
  ⟨fixup.byte_offset, sle 4 (displacement (targetOf labels fixup) fixup)⟩

/-- The displacement that leads from the end of the field to the label and its
addend. -/
def asked (labels : Labels) (fixup : LabelFixup) : Int :=
  displacement (targetOf labels fixup) fixup + fixup.addend.toInt

section

variable {labels : Labels} {buffer buffer' : List UInt8} {fixups : List LabelFixup}

@[simp] theorem length_fieldOf (fixup : LabelFixup) : (fieldOf labels fixup).bytes.length = 4 :=
  length_sle 4 _

theorem covers_iff {fixup : LabelFixup} {p : Nat} :
    (fieldOf labels fixup).Covers p ↔ fixup.byte_offset ≤ p ∧ p < fixup.byte_offset + 4 := by
  unfold Field.Covers
  rw [length_fieldOf]
  rfl

theorem apart_iff {f g : LabelFixup} : (fieldOf labels f).Apart (fieldOf labels g) ↔
      f.byte_offset + 4 ≤ g.byte_offset ∨ g.byte_offset + 4 ≤ f.byte_offset := by
  unfold Field.Apart
  rw [length_fieldOf, length_fieldOf]
  rfl

theorem patch_label_fixup_eq {fixup : LabelFixup} {label_offset : UInt32}
    (hin : fixup.byte_offset + 4 ≤ buffer.length)
    (hlabel : labels fixup.label_name = some label_offset) :
    patch_label_fixup buffer fixup label_offset =
      patch buffer (fieldOf labels fixup).pos (fieldOf labels fixup).bytes := by
  unfold patch_label_fixup fieldOf targetOf
  simp only [hlabel, Option.getD_some]
  rw [if_pos hin, Int32.toInt_ofInt]
  exact congrArg _ (sle_bmod 4 _)

theorem fields_inside (hin : ∀ f ∈ fixups, f.byte_offset + 4 ≤ buffer.length) :
    ∀ g ∈ fixups.map (fieldOf labels), g.Inside buffer.length := by
  intro g hg
  obtain ⟨f, hf, rfl⟩ := List.mem_map.mp hg
  unfold Field.Inside
  rw [length_fieldOf]
  exact hin f hf

/-- A call that returns wrote the field of each fixup in turn. -/
theorem patch_label_fixups_eq (hin : ∀ f ∈ fixups, f.byte_offset + 4 ≤ buffer.length)
    (h : patch_label_fixups labels buffer fixups = .ok buffer') :
    (∀ f ∈ fixups, (labels f.label_name).isSome) ∧
      buffer' = patchAll buffer (fixups.map (fieldOf labels)) := by
  induction fixups generalizing buffer with
  | nil => exact ⟨nofun, (Except.ok.inj h).symm⟩
  | cons fixup rest ih =>
    obtain ⟨label_offset, hexpect, h⟩ := Outcome.bind_eq_ok.mp h
    have hlabel : labels fixup.label_name = some label_offset := by
      cases hl : labels fixup.label_name with
      | none => simp [hl] at hexpect
      | some o =>
        rw [hl, Outcome.expect_some] at hexpect
        rw [Except.ok.inj hexpect]
    rw [patch_label_fixup_eq (hin fixup (List.mem_cons_self ..)) hlabel] at h
    have hlen := length_patch_inside
      (@fields_inside labels buffer _ hin (fieldOf labels fixup) (.head _))
    obtain ⟨hknown, hrest⟩ := ih (fun f hf => hlen ▸ hin f (.tail _ hf)) h
    refine ⟨?_, hrest⟩
    intro f hf
    rcases List.mem_cons.mp hf with rfl | hf
    · rw [hlabel]
      rfl
    · exact hknown f hf

end

/-! ## Branches -/

/-- Every branch whose label is known leads to its label and addend, and the
bytes outside the fields stay. -/
structure Lands (labels : Labels) (fixups : List LabelFixup) (buffer buffer' : List UInt8) :
    Prop where
  lands : ∀ f ∈ fixups, ∀ label_offset, labels f.label_name = some label_offset →
    (f.byte_offset + 4 : Int) + signed ((buffer'.drop f.byte_offset).take 4) =
      label_offset.toNat + f.addend.toInt
  stays : ∀ p, (∀ f ∈ fixups, p < f.byte_offset ∨ f.byte_offset + 4 ≤ p) → buffer'[p]? = buffer[p]?

/-- What each fixup asks for fits in its field, and for each byte of the field
the last fixup there, with its addend left out, asks for the same. -/
structure Agree (labels : Labels) (fixups : List LabelFixup) : Prop where
  fits : ∀ f ∈ fixups, -2147483648 ≤ asked labels f ∧ asked labels f < 2147483648
  last : ∀ f ∈ fixups, ∀ k < 4, ∀ g, lastOn (fixups.map (fieldOf labels)) (f.byte_offset + k) = some g →
    g.bytes[f.byte_offset + k - g.pos]? = (sle 4 (asked labels f))[k]?

/-- No two fields share a byte. -/
def Separate (fixups : List LabelFixup) : Prop :=
  fixups.Pairwise fun f g =>
    f.byte_offset + 4 ≤ g.byte_offset ∨ g.byte_offset + 4 ≤ f.byte_offset

/-- The low 32 bits say whether an addend was left out. -/
theorem sle_add_eq_iff {d : Int} {addend : Int32} :
    sle 4 d = sle 4 (d + addend.toInt) ↔ addend = 0 := by
  constructor
  · intro h
    have hmod : d % (256 ^ 4 : Nat) = (d + addend.toInt) % (256 ^ 4 : Nat) := by
      rw [← ofLe_sle, ← ofLe_sle, h]
    have hlo := addend.le_toInt
    have hhi := addend.toInt_lt
    apply Int32.toInt_inj.mp
    show addend.toInt = 0
    omega
  · rintro rfl
    rw [show (0 : Int32).toInt = 0 from rfl, Int.add_zero]

section

variable {labels : Labels} {buffer buffer' : List UInt8} {fixups : List LabelFixup}

theorem agree_iff_of_separate (h : Separate fixups) :
    Agree labels fixups ↔ ∀ f ∈ fixups, f.addend = 0 ∧
      -2147483648 ≤ displacement (targetOf labels f) f ∧
      displacement (targetOf labels f) f < 2147483648 := by
  have hapart : (fixups.map (fieldOf labels)).Pairwise Field.Apart := by
    rw [List.pairwise_map]
    exact h.imp apart_iff.mpr
  have hlast : ∀ f ∈ fixups, ∀ k < 4,
      lastOn (fixups.map (fieldOf labels)) (f.byte_offset + k) = some (fieldOf labels f) := by
    intro f hf k hk
    exact lastOn_of_apart hapart (List.mem_map_of_mem hf) (covers_iff.mpr ⟨by omega, by omega⟩)
  have hbytes : ∀ f ∈ fixups,
      (∀ k < 4, ∀ g, lastOn (fixups.map (fieldOf labels)) (f.byte_offset + k) = some g →
        g.bytes[f.byte_offset + k - g.pos]? = (sle 4 (asked labels f))[k]?) ↔ f.addend = 0 := by
    intro f hf
    rw [← @sle_add_eq_iff (displacement (targetOf labels f) f)]
    constructor
    · intro hall
      apply List.ext_getElem?
      intro k
      rcases Nat.lt_or_ge k 4 with hk | hk
      · have hbyte := hall k hk _ (hlast f hf k hk)
        rwa [show f.byte_offset + k - (fieldOf labels f).pos = k from Nat.add_sub_cancel_left ..]
          at hbyte
      · rw [List.getElem?_eq_none (by simpa using hk), List.getElem?_eq_none (by simpa using hk)]
    · intro heq k hk g hg
      obtain rfl := Option.some.inj ((hlast f hf k hk).symm.trans hg)
      rw [show f.byte_offset + k - (fieldOf labels f).pos = k from Nat.add_sub_cancel_left ..]
      exact congrArg (·[k]?) heq
  constructor
  · intro ⟨hfits, hlast⟩ f hf
    have hzero := (hbytes f hf).mp (hlast f hf)
    have hf' := hfits f hf
    unfold asked at hf'
    rw [hzero, show (0 : Int32).toInt = 0 from rfl, Int.add_zero] at hf'
    exact ⟨hzero, hf'⟩
  · intro hall
    refine ⟨fun f hf => ?_, fun f hf => (hbytes f hf).mpr (hall f hf).1⟩
    unfold asked
    rw [(hall f hf).1, show (0 : Int32).toInt = 0 from rfl, Int.add_zero]
    exact (hall f hf).2

theorem branch_lands_iff (hin : ∀ f ∈ fixups, f.byte_offset + 4 ≤ buffer.length) {f : LabelFixup}
    (hf : f ∈ fixups) {label_offset : UInt32} (hlabel : labels f.label_name = some label_offset) :
    (f.byte_offset + 4 : Int) + signed
        (((patchAll buffer (fixups.map (fieldOf labels))).drop f.byte_offset).take 4) =
      label_offset.toNat + f.addend.toInt ↔
    (-2147483648 ≤ asked labels f ∧ asked labels f < 2147483648) ∧
      ∀ k < 4, ∀ g, lastOn (fixups.map (fieldOf labels)) (f.byte_offset + k) = some g →
        g.bytes[f.byte_offset + k - g.pos]? = (sle 4 (asked labels f))[k]? := by
  have hinside := @fields_inside labels buffer fixups hin
  have hwindow := @window_patchAll_eq_iff buffer _ hinside _ (List.mem_map_of_mem hf)
    (sle 4 (asked labels f)) (by rw [length_sle, length_fieldOf])
  rw [length_fieldOf] at hwindow
  have hasked : ∀ v : Int, (f.byte_offset + 4 : Int) + v = label_offset.toNat + f.addend.toInt ↔
      v = asked labels f := by
    intro v
    unfold asked displacement targetOf
    rw [hlabel]
    simp only [Option.getD_some]
    omega
  have hlen : (((patchAll buffer (fixups.map (fieldOf labels))).drop f.byte_offset).take 4).length =
      4 := by
    rw [List.length_take, List.length_drop, length_patchAll hinside]
    have := hin f hf
    omega
  rw [hasked, signed_eq_iff hlen (by decide)]
  exact and_congr Iff.rfl hwindow

/-- The calls that return land every branch exactly when the fixups agree; where
no two fields share a byte, when there are no addends and no label is too far. -/
theorem patch_label_fixups_lands_iff (hin : ∀ f ∈ fixups, f.byte_offset + 4 ≤ buffer.length)
    (h : patch_label_fixups labels buffer fixups = .ok buffer') :
    (Lands labels fixups buffer buffer' ↔ Agree labels fixups) ∧
      (Separate fixups → (Agree labels fixups ↔ ∀ f ∈ fixups, f.addend = 0 ∧
        -2147483648 ≤ displacement (targetOf labels f) f ∧
        displacement (targetOf labels f) f < 2147483648)) := by
  refine ⟨?_, agree_iff_of_separate⟩
  obtain ⟨hknown, rfl⟩ := patch_label_fixups_eq hin h
  constructor
  · intro hlands
    constructor
    · intro f hf
      obtain ⟨o, ho⟩ := Option.isSome_iff_exists.mp (hknown f hf)
      exact ((branch_lands_iff hin hf ho).mp (hlands.lands f hf o ho)).1
    · intro f hf
      obtain ⟨o, ho⟩ := Option.isSome_iff_exists.mp (hknown f hf)
      exact ((branch_lands_iff hin hf ho).mp (hlands.lands f hf o ho)).2
  · intro hagree
    constructor
    · intro f hf o ho
      exact (branch_lands_iff hin hf ho).mpr ⟨hagree.fits f hf, hagree.last f hf⟩
    · intro p hp
      have hnone : lastOn (fixups.map (fieldOf labels)) p = none := by
        rw [lastOn_eq_none_iff]
        intro g hg hc
        obtain ⟨f, hf, rfl⟩ := List.mem_map.mp hg
        obtain ⟨hlo, hhi⟩ := covers_iff.mp hc
        rcases hp f hf with h1 | h1 <;> omega
      rw [getElem?_patchAll (fields_inside hin), hnone]

end

/-- A `jmp` to itself at the start of `.text`. -/
theorem patch_label_fixups_lands_self :
    Lands (fun _ => some 0) [⟨1, "l", 0, 5⟩] [0xE9, 0, 0, 0, 0] [0xE9, 0xFB, 0xFF, 0xFF, 0xFF] := by
  have h := @patch_label_fixups_lands_iff (fun _ => some 0) [0xE9, 0, 0, 0, 0]
    [0xE9, 0xFB, 0xFF, 0xFF, 0xFF] [⟨1, "l", 0, 5⟩] (by decide) (by rfl)
  exact h.1.mpr ((h.2 (List.pairwise_singleton ..)).mpr (by decide))

/-- With the addend 5 the same `jmp` should lead past itself, and leads to itself
again. -/
theorem patch_label_fixups_drops_addend :
    patch_label_fixups (fun _ => some 0) [0xE9, 0, 0, 0, 0] [⟨1, "l", 5, 5⟩] =
        .ok [0xE9, 0xFB, 0xFF, 0xFF, 0xFF] ∧
      ¬ Lands (fun _ => some 0) [⟨1, "l", 5, 5⟩] [0xE9, 0, 0, 0, 0]
        [0xE9, 0xFB, 0xFF, 0xFF, 0xFF] := by
  refine ⟨by rfl, ?_⟩
  intro h
  exact absurd (h.lands _ (.head _) 0 rfl) (by decide)

end paideia_as.cmd_build
