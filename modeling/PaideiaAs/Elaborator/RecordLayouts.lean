-- The layouts of record types (`finalise_record_layouts` of `emit_pass_state.rs`):
-- they are naturally aligned, and leave no eightbyte of a small record empty.
import PaideiaAs.Ir.Abi

namespace paideia_as_elaborator

open paideia_as_ir.abi

/-- The size and alignment that a code stands for; its bit 4 is the sign. -/
def field_size (field_size_byte_code : UInt8) : Option UInt8 :=
  let size_code := field_size_byte_code &&& 0x0F
  if size_code = 1 ∨ size_code = 2 ∨ size_code = 4 ∨ size_code = 8 then some size_code else none

def align_up (offset : UInt64) (align : UInt8) : UInt64 :=
  (offset + align.toUInt64 - 1) / align.toUInt64 * align.toUInt64

/-- The fields from an offset on, with the alignment so far, and at the end the
alignment of the record and the end of its fields. -/
def finalise_fields (struct_align : UInt8) (current_offset : UInt64) :
    List UInt8 → Option (List FieldLayout × UInt8 × UInt64)
  | [] => some ([], struct_align, current_offset)
  | code :: codes => do
    let size ← field_size code
    let offset := align_up current_offset size
    let (fields, align, finish) ←
      finalise_fields (max struct_align size) (offset + size.toUInt64) codes
    return (⟨offset, size, false⟩ :: fields, align, finish)

def finalise_record_layout (codes : List UInt8) : Option RecordLayout :=
  if codes.isEmpty then some ⟨0, 1, []⟩
  else do
    let (fields, align, finish) ← finalise_fields 1 0 codes
    return ⟨align_up finish align, align, fields⟩

/-- A size of a field. -/
def Width (size : UInt8) : Prop := size = 1 ∨ size = 2 ∨ size = 4 ∨ size = 8

theorem Width.toNat {size : UInt8} (h : Width size) :
    size.toNat = 1 ∨ size.toNat = 2 ∨ size.toNat = 4 ∨ size.toNat = 8 := by
  rcases h with rfl | rfl | rfl | rfl <;> decide

theorem field_size_width {code size : UInt8} (h : field_size code = some size) : Width size := by
  unfold field_size at h
  dsimp only at h
  split at h
  · rename_i hcode
    cases h
    exact hcode
  · cases h

theorem max_width {a b : UInt8} (ha : Width a) (hb : Width b) : Width (max a b) := by
  change Width (if a ≤ b then b else a)
  split
  · exact hb
  · exact ha

/-- The next multiple, where the numbers leave room for it. -/
theorem align_up_spec {offset : UInt64} {align : UInt8} (halign : Width align)
    (hroom : offset.toNat < 2 ^ 63) :
    offset.toNat ≤ (align_up offset align).toNat ∧
      (align_up offset align).toNat < offset.toNat + align.toNat ∧
      align.toNat ∣ (align_up offset align).toNat := by
  have hone : (1 : UInt64) ≤ offset + align.toUInt64 := by
    rw [UInt64.le_iff_toNat_le, UInt64.toNat_add, UInt8.toNat_toUInt64]
    have hwidth := halign.toNat
    change 1 ≤ (offset.toNat + align.toNat) % 2 ^ 64
    omega
  have hval : (align_up offset align).toNat
      = (offset.toNat + align.toNat - 1) / align.toNat * align.toNat := by
    have hle := Nat.div_mul_le_self (offset.toNat + align.toNat - 1) align.toNat
    have hbyte : align.toNat < 256 := align.toNat_lt
    have hsum : offset.toNat + align.toNat < 2 ^ 64 := by omega
    unfold align_up
    rw [UInt64.toNat_mul, UInt64.toNat_div, UInt64.toNat_sub_of_le _ _ hone, UInt64.toNat_add,
      UInt8.toNat_toUInt64, Nat.mod_eq_of_lt hsum]
    exact Nat.mod_eq_of_lt (Nat.lt_of_le_of_lt hle (by omega))
  rw [hval]
  refine ⟨?_, ?_, Nat.dvd_mul_left ..⟩
  all_goals rcases halign.toNat with h | h | h | h <;> rw [h] <;> omega

/-- Fields placed one after the other leave no gap of an eightbyte. -/
theorem finalise_fields_spec {codes : List UInt8} :
    ∀ {struct_align align : UInt8} {offset finish : UInt64} {fields : List FieldLayout},
      Width struct_align → offset.toNat + 16 * codes.length < 2 ^ 63 →
      finalise_fields struct_align offset codes = some (fields, align, finish) →
      Width align ∧ offset.toNat ≤ finish.toNat ∧ finish.toNat < 2 ^ 63 ∧
        (∀ f ∈ fields, Width f.size ∧ f.size.toNat ∣ f.offset.toNat ∧
          f.offset.toNat + f.size.toNat ≤ finish.toNat) ∧
        ∀ k, offset.toNat ≤ 8 * k → 8 * k < finish.toNat → ∃ f ∈ fields, f.offset.toNat / 8 = k := by
  induction codes with
  | nil =>
    intro struct_align align offset finish fields halign hroom h
    cases h
    refine ⟨halign, Nat.le_refl _, by omega, ?_, ?_⟩
    · intro f hf
      cases hf
    · intro k hle hlt
      omega
  | cons code codes ih =>
    intro struct_align align offset finish fields halign hroom h
    rw [List.length_cons] at hroom
    unfold finalise_fields at h
    obtain ⟨size, hcode, h⟩ := Option.bind_eq_some_iff.mp h
    obtain ⟨⟨rest, align', finish'⟩, hrest, h⟩ := Option.bind_eq_some_iff.mp h
    cases h
    have hsize := field_size_width hcode
    obtain ⟨hle, hlt, hdvd⟩ := align_up_spec hsize (show offset.toNat < 2 ^ 63 by omega)
    have hwidth := hsize.toNat
    have hnext : (align_up offset size + size.toUInt64).toNat
        = (align_up offset size).toNat + size.toNat := by
      rw [UInt64.toNat_add, UInt8.toNat_toUInt64]
      exact Nat.mod_eq_of_lt (by omega)
    obtain ⟨hw, hfin, hbound, hall, hused⟩ := ih (max_width halign hsize) (by omega) hrest
    rw [hnext] at hfin hused
    refine ⟨hw, by omega, hbound, ?_, ?_⟩
    · intro f hf
      rcases List.mem_cons.mp hf with rfl | hf
      · exact ⟨hsize, hdvd, hfin⟩
      · exact hall f hf
    · intro k hk hklt
      by_cases hpast : (align_up offset size).toNat + size.toNat ≤ 8 * k
      · obtain ⟨f, hf, hat⟩ := hused k hpast hklt
        exact ⟨f, .tail _ hf, hat⟩
      · -- the eightbyte in which the field itself lies
        refine ⟨_, List.mem_cons_self .., ?_⟩
        dsimp only
        obtain ⟨q, hq⟩ := hdvd
        rcases hsize.toNat with h | h | h | h <;> rw [h] at hq hlt hpast <;> omega

/-- The layouts of record types are naturally aligned, and a small record has no
empty eightbyte. -/
theorem finalised_layout {codes : List UInt8} {layout : RecordLayout} (hlen : codes.length < 2 ^ 58)
    (h : finalise_record_layout codes = some layout) :
    NaturallyAligned layout ∧ EightbytesUsed layout := by
  unfold finalise_record_layout at h
  split at h
  · cases h
    exact ⟨⟨by simp, by simp, by simp⟩, by simp [EightbytesUsed]⟩
  · obtain ⟨⟨fields, align, finish⟩, hfields, h⟩ := Option.bind_eq_some_iff.mp h
    cases h
    obtain ⟨hw, -, hbound, hall, hused⟩ := finalise_fields_spec (.inl rfl) (by simp; omega) hfields
    obtain ⟨hle, hlt, hdvd⟩ := align_up_spec hw hbound
    refine ⟨⟨fun f hf => (hall f hf).1, fun f hf => (hall f hf).2.1, ?_⟩, ?_⟩
    · intro f hf
      exact Nat.le_trans (hall f hf).2.2 hle
    · intro _ k hk
      refine hused k (Nat.zero_le _) ?_
      dsimp only at hk
      obtain ⟨q, hq⟩ := hdvd
      rcases hw.toNat with h | h | h | h <;> rw [h] at hq hlt <;> omega

end paideia_as_elaborator
