-- The tables of records of a fixed size come back from their bytes. A section
-- descriptor comes back with its name cut short, unless the cut goes through a
-- character.
import PaideiaAs.Pax.Records

namespace paideia_as_emitter_pax

open Buffer Bytes

/-! ## Tables -/

theorem length_flatMap_records {α : Type} {size : Nat} {enc : α → List UInt8}
    (hsize : ∀ x, (enc x).length = size) (xs : List α) :
    (xs.flatMap enc).length = xs.length * size := by
  induction xs with
  | nil => simp
  | cons x xs ih =>
    rw [List.flatMap_cons, List.length_append, ih, hsize, List.length_cons, Nat.succ_mul,
      Nat.add_comm]

theorem mapM_some {α : Type} (xs : List α) : xs.mapM some = some xs := by
  induction xs with
  | nil => rfl
  | cons x xs ih => simp [ih]

/-- A table whose records come back comes back. -/
theorem readWholeTable_flatMap {α : Type} {size : Nat} {enc : α → List UInt8}
    {parse : List UInt8 → Outcome (Option α)} (hpos : 0 < size)
    (hsize : ∀ x, (enc x).length = size) (hparse : ∀ x, parse (enc x) = .ok (some x))
    (xs : List α) : readWholeTable size parse (xs.flatMap enc) = .ok (some xs) := by
  have hread := readTable_flatMap hsize hparse [] xs [] 0 (by simp)
  rw [List.nil_append, List.append_nil, mapM_some] at hread
  unfold readWholeTable
  rw [length_flatMap_records hsize, if_neg (by simp), Nat.mul_div_cancel _ hpos, hread]

theorem SymTab.from_bytes_to_bytes (t : SymTab) : SymTab.from_bytes t.to_bytes = .ok (some t) := by
  unfold SymTab.from_bytes SymTab.to_bytes
  rw [readWholeTable_flatMap (by decide) SymEntry.length_to_bytes SymEntry.from_bytes_to_bytes]
  rfl

theorem Relocs.from_bytes_to_bytes (t : Relocs) : Relocs.from_bytes t.to_bytes = .ok (some t) := by
  unfold Relocs.from_bytes Relocs.to_bytes
  rw [readWholeTable_flatMap (by decide) RelocEntry.length_to_bytes RelocEntry.from_bytes_to_bytes]
  rfl

theorem ImportsSection.from_bytes_to_bytes (s : ImportsSection) :
    ImportsSection.from_bytes s.to_bytes = .ok (some s) := by
  unfold ImportsSection.from_bytes ImportsSection.to_bytes
  rw [readWholeTable_flatMap (by decide) CapDescriptor.length_to_bytes
    CapDescriptor.from_bytes_to_bytes]
  rfl

theorem ExportsSection.from_bytes_to_bytes (s : ExportsSection) :
    ExportsSection.from_bytes s.to_bytes = .ok (some s) := by
  unfold ExportsSection.from_bytes ExportsSection.to_bytes
  rw [readWholeTable_flatMap (by decide) CapDescriptor.length_to_bytes
    CapDescriptor.from_bytes_to_bytes]
  rfl

theorem CapsSection.from_bytes_to_bytes (s : CapsSection) :
    CapsSection.from_bytes s.to_bytes = .ok (some s) := by
  unfold CapsSection.from_bytes CapsSection.to_bytes
  rw [readWholeTable_flatMap (by decide) CapEntry.length_to_bytes CapEntry.from_bytes_to_bytes]
  rfl

theorem FunctorsSection.from_bytes_to_bytes (s : FunctorsSection) :
    FunctorsSection.from_bytes s.to_bytes = .ok (some s) := by
  unfold FunctorsSection.from_bytes FunctorsSection.to_bytes
  rw [readWholeTable_flatMap (by decide) FunctorEntry.length_to_bytes
    FunctorEntry.from_bytes_to_bytes]
  rfl

theorem UnsafeSection.from_bytes_to_bytes (s : UnsafeSection) :
    UnsafeSection.from_bytes s.to_bytes = .ok (some s) := by
  unfold UnsafeSection.from_bytes UnsafeSection.to_bytes
  rw [readWholeTable_flatMap (by decide) UnsafeEntry.length_to_bytes
    UnsafeEntry.from_bytes_to_bytes]
  rfl

theorem OptSection.from_bytes_to_bytes (s : OptSection) :
    OptSection.from_bytes s.to_bytes = .ok (some s) := by
  unfold OptSection.from_bytes OptSection.to_bytes
  rw [readWholeTable_flatMap (by decide) OptEntry.length_to_bytes OptEntry.from_bytes_to_bytes]
  rfl

theorem LinSection.from_bytes_to_bytes (s : LinSection) :
    LinSection.from_bytes s.to_bytes = .ok (some s) := by
  unfold LinSection.from_bytes LinSection.to_bytes
  rw [readWholeTable_flatMap (by decide) LinEntry.length_to_bytes LinEntry.from_bytes_to_bytes]
  rfl

/-! ## Cut names -/

/-- A name is text up to a byte exactly when a character starts there. -/
theorem from_utf8_take_isSome_iff (s : String) {n : Nat} (hn : n ≤ (as_bytes s).length) :
    (from_utf8 ((as_bytes s).take n)).isSome ↔ (⟨n⟩ : String.Pos.Raw).IsValid s := by
  have hextract : (⟨((as_bytes s).take n).toArray⟩ : ByteArray) = s.toByteArray.extract 0 n := by
    apply ByteArray.ext
    apply Array.toList_inj.mp
    simp [as_bytes]
  rw [String.Pos.Raw.isValid_iff_isValidUTF8_extract_zero]
  unfold from_utf8 String.fromUTF8?
  rw [hextract]
  have hle : (⟨n⟩ : String.Pos.Raw) ≤ s.rawEndPos := by
    simpa [String.Pos.Raw.le_iff, as_bytes] using hn
  by_cases hvalid : (s.toByteArray.extract 0 n).IsValidUTF8 <;> simp [hvalid, hle]

namespace Section

/-- The bytes of a name that are read back: those in front of a zero, and 23 of
them at most. -/
def keptName (name : String) : List UInt8 := (storedName name).takeWhile (· ≠ 0)

variable (name : String)

theorem keptName_eq_take : keptName name = (as_bytes name).take (keptName name).length := by
  have hpre : keptName name <+: as_bytes name :=
    (List.takeWhile_prefix _).trans (List.take_prefix _ _)
  exact List.prefix_iff_eq_take.mp hpre

theorem length_keptName_le : (keptName name).length ≤ 23 :=
  (List.takeWhile_prefix _).length_le.trans (List.length_take_le _ _)

/-- The first zero stands behind the bytes in front of it. -/
theorem getElem?_length_takeWhile {bs : List UInt8} (h : 0 ∈ bs) :
    bs[(bs.takeWhile (· ≠ 0)).length]? = some 0 := by
  induction bs with
  | nil => cases h
  | cons b bs ih =>
    by_cases hb : b = 0
    · simp [hb]
    · have hrest : 0 ∈ bs := (List.mem_cons.mp h).resolve_left (Ne.symm hb)
      simpa [hb] using ih hrest

theorem keptName_of_no_zero {name : String} (h : 0 ∉ storedName name) :
    keptName name = storedName name := by
  have hall : ∀ b ∈ storedName name, (decide (b ≠ 0)) = true := by
    intro b hb
    simpa using fun h0 : b = 0 => h (h0 ▸ hb)
  have happ := @List.takeWhile_append_of_pos _ (fun b => decide (b ≠ 0)) _ [] hall
  simpa [keptName] using happ

/-- The name ends within its 23 bytes, or has a zero there, or a character
starts right behind them. -/
def CutsClean (name : String) : Prop :=
  (as_bytes name).length ≤ 23 ∨ 0 ∈ storedName name ∨ (⟨23⟩ : String.Pos.Raw).IsValid name

theorem isValid_of_zero {name : String} {n : Nat} (h : (as_bytes name)[n]? = some 0) :
    (⟨n⟩ : String.Pos.Raw).IsValid name := by
  obtain ⟨hlt, hget⟩ := List.getElem?_eq_some_iff.mp h
  rw [String.Pos.Raw.isValid_iff_isUTF8FirstByte]
  have hlt' : (⟨n⟩ : String.Pos.Raw) < name.rawEndPos := by
    simpa [String.Pos.Raw.lt_iff, as_bytes] using hlt
  refine .inr ⟨hlt', ?_⟩
  have hbyte : name.getUTF8Byte ⟨n⟩ hlt' = 0 := by
    rw [← hget]
    rfl
  rw [hbyte]
  decide

theorem from_utf8_keptName_isSome_iff : (from_utf8 (keptName name)).isSome ↔ CutsClean name := by
  have hle : (keptName name).length ≤ (as_bytes name).length := by
    have hlen := congrArg List.length (keptName_eq_take name)
    rw [List.length_take] at hlen
    omega
  rw [keptName_eq_take, from_utf8_take_isSome_iff name hle]
  unfold CutsClean
  by_cases hzero : 0 ∈ storedName name
  · refine iff_of_true (isValid_of_zero ?_) (.inr (.inl hzero))
    have hstop := getElem?_length_takeWhile hzero
    unfold storedName at hstop
    rw [List.getElem?_take] at hstop
    split at hstop
    · exact hstop
    · cases hstop
  · rw [keptName_of_no_zero hzero]
    have hlen : (storedName name).length = min 23 (as_bytes name).length := by
      unfold storedName SECTION_NAME_MAX
      rw [List.length_take]
    rcases Nat.lt_or_ge 23 (as_bytes name).length with hlong | hshort
    · rw [hlen, Nat.min_eq_left hlong.le]
      simp [hzero, hlong]
    · rw [hlen, Nat.min_eq_right hshort]
      refine iff_of_true ?_ (.inl hshort)
      rw [String.Pos.Raw.isValid_iff_isUTF8FirstByte]
      exact .inl (by simp [as_bytes, String.Pos.Raw.ext_iff])

/-- The name that is read is a prefix of 23 bytes at most, and all of a name that
fits and has no zero. -/
structure NameKept (name name' : String) : Prop where
  cut : as_bytes name' <+: as_bytes name
  short : (as_bytes name').length ≤ 23
  whole : 0 ∉ as_bytes name → (as_bytes name).length ≤ 23 → name' = name

theorem nameKept_of_from_utf8 {name name' : String} (h : from_utf8 (keptName name) = some name') :
    NameKept name name' := by
  have hbytes := as_bytes_of_from_utf8 h
  refine ⟨?_, ?_, ?_⟩
  · rw [hbytes]
    exact (List.takeWhile_prefix _).trans (List.take_prefix _ _)
  · rw [hbytes]
    exact length_keptName_le name
  · intro hzero hshort
    have hstored : storedName name = as_bytes name := List.take_of_length_le hshort
    rw [keptName_of_no_zero (by rwa [hstored]), hstored, from_utf8_as_bytes] at h
    exact (Option.some.inj h).symm

/-- A descriptor comes back with its name cut exactly when the cut is clean. -/
theorem comes_back_iff (s : Section) :
    (∃ name', from_bytes s.to_bytes = .ok (some { s with name := name' }) ∧ NameKept s.name name') ↔
      CutsClean s.name := by
  rw [from_bytes_to_bytes, ← from_utf8_keptName_isSome_iff]
  have htruncated : s.truncated = (from_utf8 (keptName s.name)).map fun name => { s with name } := rfl
  rw [htruncated]
  cases h : from_utf8 (keptName s.name) with
  | none => simp
  | some name' =>
    refine iff_of_true ⟨name', rfl, nameKept_of_from_utf8 h⟩ rfl

end Section

/-- Every table is read back, and so is a name that is cut cleanly. -/
theorem fixed_size_records_come_back (s : Section) :
    (∀ t : SymTab, SymTab.from_bytes t.to_bytes = .ok (some t)) ∧
    (∀ t : Relocs, Relocs.from_bytes t.to_bytes = .ok (some t)) ∧
    (∀ s : ImportsSection, ImportsSection.from_bytes s.to_bytes = .ok (some s)) ∧
    (∀ s : ExportsSection, ExportsSection.from_bytes s.to_bytes = .ok (some s)) ∧
    (∀ s : CapsSection, CapsSection.from_bytes s.to_bytes = .ok (some s)) ∧
    (∀ s : FunctorsSection, FunctorsSection.from_bytes s.to_bytes = .ok (some s)) ∧
    (∀ s : UnsafeSection, UnsafeSection.from_bytes s.to_bytes = .ok (some s)) ∧
    (∀ s : OptSection, OptSection.from_bytes s.to_bytes = .ok (some s)) ∧
    (∀ s : LinSection, LinSection.from_bytes s.to_bytes = .ok (some s)) ∧
    ((∃ name', Section.from_bytes s.to_bytes = .ok (some { s with name := name' }) ∧
      Section.NameKept s.name name') ↔ Section.CutsClean s.name) := by
  refine ⟨SymTab.from_bytes_to_bytes, Relocs.from_bytes_to_bytes,
    ImportsSection.from_bytes_to_bytes, ExportsSection.from_bytes_to_bytes,
    CapsSection.from_bytes_to_bytes, FunctorsSection.from_bytes_to_bytes,
    UnsafeSection.from_bytes_to_bytes, OptSection.from_bytes_to_bytes,
    LinSection.from_bytes_to_bytes, Section.comes_back_iff s⟩

/-- 22 letters and an accented one: its second byte is cut off, and no section is
read. -/
theorem section_cut_in_character :
    Section.from_bytes (Section.to_bytes
      ⟨.Code, 1, 0, 0, 0, 16, ".section.with.a.long.né"⟩) = .ok none := by
  have hname : ¬ Section.CutsClean ".section.with.a.long.né" := by
    unfold Section.CutsClean
    rw [← String.Pos.Raw.isValid_eq_true_iff]
    decide
  rw [← Section.from_utf8_keptName_isSome_iff, Option.not_isSome_iff_eq_none] at hname
  rw [Section.from_bytes_to_bytes, Section.truncated, ← Section.keptName, hname]
  rfl

end paideia_as_emitter_pax
