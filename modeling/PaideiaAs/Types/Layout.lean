-- `layout.rs`: how many bytes a type takes and how it is aligned. The
-- arithmetic is that of `u64`, round 2^64, and nothing in the code looks at its
-- size: a type is laid out well, with all that it holds by value, exactly when
-- it takes less than 2^64 bytes.
import PaideiaAs.Lib.Placement
import PaideiaAs.Types.Interner

namespace paideia_as_types

open Placement
open UInt64 (le_iff_toNat_le toNat_add toNat_lt toNat_mod)

structure Layout where
  size : UInt64
  alignment : UInt64
  deriving DecidableEq

/-- The layout as plain numbers. -/
def Layout.item (l : Layout) : Item := ⟨l.size.toNat, l.alignment.toNat⟩

/-! ## Records and enums -/

/-- The distance to the next place of an alignment. -/
def padding_to (offset alignment : UInt64) : UInt64 :=
  (alignment - offset % alignment) % alignment

/-- Where a field starts. -/
def field_offset (offset : UInt64) (field_layout : Layout) : UInt64 :=
  offset + padding_to offset field_layout.alignment

/-- The loop over the fields: the offset behind them and the largest alignment. -/
def layout_fields : List Layout → UInt64 → UInt64 → UInt64 × UInt64
  | [], offset, max_align => (offset, max_align)
  | l :: ls, offset, max_align =>
    layout_fields ls (field_offset offset l + l.size)
      (if l.alignment > max_align then l.alignment else max_align)

def field_offsets : List Layout → UInt64 → List UInt64
  | [], _ => []
  | l :: ls, offset => field_offset offset l :: field_offsets ls (field_offset offset l + l.size)

/-- Fields in a row, with the tail padded. -/
def layout_of_fields (ls : List Layout) : Layout :=
  if ls.isEmpty then ⟨0, 1⟩
  else
    let (offset, max_align) := layout_fields ls 0 1
    let tail_padding := padding_to offset max_align
    ⟨offset + tail_padding, max_align⟩

section

variable (layout_of : TypeId → Outcome Layout)

def layout_of_record (fields : List (Nat × TypeId)) : Outcome Layout := do
  let ls ← fields.mapM fun f => layout_of f.2
  .ok (layout_of_fields ls)

def layout_of_tuple_payload (types : List TypeId) : Outcome Layout := do
  let ls ← types.mapM layout_of
  .ok (layout_of_fields ls)

def layout_of_record_payload (fields : List (Nat × TypeId)) : Outcome Layout :=
  layout_of_record layout_of fields

def layout_of_payload : EnumPayload → Outcome Layout
  | .Unit => .ok ⟨0, 1⟩
  | .Tuple types => layout_of_tuple_payload layout_of types
  | .Record fields => layout_of_record_payload layout_of fields

/-- The next multiple of a power of two. -/
def align_up (offset align : UInt64) : UInt64 :=
  if align = 0 then offset else (offset + align - 1) &&& ~~~(align - 1)

/-- The loop over the payloads: the largest size and the largest alignment. -/
def max_payload : List Layout → UInt64 → UInt64 → UInt64 × UInt64
  | [], max_size, max_align => (max_size, max_align)
  | l :: ls, max_size, max_align =>
    max_payload ls (if l.size > max_size then l.size else max_size)
      (if l.alignment > max_align then l.alignment else max_align)

/-- Where the payload of an enum starts. -/
def payload_offset (ls : List Layout) : UInt64 := align_up 8 (max_payload ls 0 1).2

/-- A discriminant of eight bytes and the payloads over one another. -/
def layout_of_payloads (ls : List Layout) : Layout :=
  let (max_payload_size, max_payload_align) := max_payload ls 0 1
  let body_end := align_up 8 max_payload_align + max_payload_size
  let total_align := max 8 max_payload_align
  ⟨align_up body_end total_align, total_align⟩

def layout_of_enum (variants : List (Nat × EnumPayload)) : Outcome Layout := do
  let ls ← variants.mapM fun v => layout_of_payload layout_of v.2
  .ok (layout_of_payloads ls)

end

/-- The arms of `layout_of` that ask for no other type. -/
def Ty.fixed_layout : Ty → Layout
  | .Unit => ⟨0, 1⟩
  | .Bool => ⟨1, 1⟩
  | .Char => ⟨4, 4⟩
  | .UInt bits | .SInt bits =>
    if bits = 16 then ⟨2, 2⟩
    else if bits = 32 then ⟨4, 4⟩
    else if bits = 64 ∨ bits = 0xFFFF then ⟨8, 8⟩
    else if bits = 128 then ⟨16, 16⟩
    else if bits = 8 then ⟨1, 1⟩
    else ⟨8, 8⟩
  | .Float bits => if bits = 32 then ⟨4, 4⟩ else ⟨8, 8⟩
  | .Ptr _ _ => ⟨8, 8⟩
  | .Str => ⟨16, 8⟩
  | _ => ⟨8, 8⟩

/-- The arms of `layout_of`, over the layouts of other types. -/
def Ty.layout (ty : Ty) (layout_of : TypeId → Outcome Layout) : Outcome Layout :=
  match ty with
  | .Record fields => layout_of_record layout_of fields
  | .Enum variants => layout_of_enum layout_of variants
  | ty => .ok ty.fixed_layout

/-- `layout_of`, with `fuel` for the depth of the type. -/
def layout_of (it : TypeInterner) : Nat → TypeId → Outcome Layout
  | 0, _ => .error .div
  | fuel + 1, t => do
    let ty ← it.get t
    ty.layout (layout_of it fuel)

/-! ## One aggregate -/

def Layout.Usual (l : Layout) : Prop :=
  l.alignment = 1 ∨ l.alignment = 2 ∨ l.alignment = 4 ∨ l.alignment = 8 ∨ l.alignment = 16

instance (l : Layout) : Decidable l.Usual := inferInstanceAs (Decidable (_ ∨ _))

variable {l : Layout} {ls : List Layout} {o a : UInt64}

theorem Layout.Usual.dvd (h : l.Usual) : l.alignment.toNat ∣ 16 := by
  rcases h with h | h | h | h | h <;> rw [h] <;> decide

theorem no_other : ∀ n ≤ 16, ∀ k ≤ 16, 16 = n * k → n = 1 ∨ n = 2 ∨ n = 4 ∨ n = 8 ∨ n = 16 := by
  decide

theorem Layout.usual_of_dvd (h : l.alignment.toNat ∣ 16) : l.Usual := by
  have hle := Nat.le_of_dvd (by decide) h
  unfold Layout.Usual
  simp only [← UInt64.toNat_inj]
  show _ = 1 ∨ _ = 2 ∨ _ = 4 ∨ _ = 8 ∨ _ = 16
  generalize l.alignment.toNat = n at h hle
  obtain ⟨k, hk⟩ := h
  have hk16 : k ≤ 16 := Nat.le_of_dvd (by decide) ⟨n, by rw [hk, Nat.mul_comm]⟩
  revert hk
  exact no_other n hle k hk16

theorem pos_of_dvd (h : a.toNat ∣ 16) : 0 < a.toNat := Nat.pos_of_dvd_of_pos h (by decide)

theorem le_of_dvd (h : a.toNat ∣ 16) : a.toNat ≤ 16 := Nat.le_of_dvd (by decide) h

theorem dvd_word (h : a.toNat ∣ 16) : a.toNat ∣ 2 ^ 64 := h.trans (by decide)

theorem Layout.Usual.pow (h : l.Usual) : ∃ k, l.alignment.toNat = 2 ^ k := by
  rcases h with h | h | h | h | h
  · exact ⟨0, by rw [h]; rfl⟩
  · exact ⟨1, by rw [h]; rfl⟩
  · exact ⟨2, by rw [h]; rfl⟩
  · exact ⟨3, by rw [h]; rfl⟩
  · exact ⟨4, by rw [h]; rfl⟩

theorem padding_to_toNat (o : UInt64) (h : a.toNat ∣ 16) :
    (padding_to o a).toNat = padding o.toNat a.toNat := by
  have hpos := pos_of_dvd h
  have hle : o % a ≤ a := by
    rw [le_iff_toNat_le, toNat_mod]
    exact (Nat.mod_lt _ hpos).le
  unfold padding_to padding
  rw [toNat_mod, UInt64.toNat_sub_of_le _ _ hle, toNat_mod]

theorem field_offset_toNat (o : UInt64) (h : l.alignment.toNat ∣ 16) :
    (field_offset o l).toNat = wrapStart (2 ^ 64) o.toNat l.item := by
  unfold field_offset wrapStart
  rw [toNat_add, padding_to_toNat o h]
  rfl

theorem field_end_toNat (o : UInt64) (h : l.alignment.toNat ∣ 16) :
    (field_offset o l + l.size).toNat
      = (wrapStart (2 ^ 64) o.toNat l.item + l.item.size) % 2 ^ 64 := by
  rw [toNat_add, field_offset_toNat o h]
  rfl

section

variable (h : ∀ l ∈ ls, l.Usual)

include h

theorem field_offsets_toNat : (field_offsets ls o).map UInt64.toNat
      = wrapStarts (2 ^ 64) o.toNat (ls.map Layout.item) := by
  induction ls generalizing o with
  | nil => rfl
  | cons l ls ih =>
    have hl := (h l (.head _)).dvd
    rw [List.map_cons]
    unfold field_offsets wrapStarts
    rw [List.map_cons, ih fun l' hl' => h l' (List.mem_cons_of_mem l hl'), field_offset_toNat o hl,
      field_end_toNat o hl]

omit h in
theorem max_toNat (x y : UInt64) : (if x > y then x else y).toNat = max x.toNat y.toNat := by
  split
  · rename_i h
    exact (Nat.max_eq_left (le_iff_toNat_le.mp (UInt64.le_of_lt h))).symm
  · rename_i h
    exact (Nat.max_eq_right (le_iff_toNat_le.mp (UInt64.not_lt.mp h))).symm

omit h in
theorem one_le_maxAlign (is : List Item) : 1 ≤ maxAlign is := by
  induction is with
  | nil => exact le_rfl
  | cons i is ih => exact ih.trans (Nat.le_max_right _ _)

theorem layout_fields_toNat (ha : 1 ≤ a.toNat) :
    (layout_fields ls o a).1.toNat = wrapFinish (2 ^ 64) o.toNat (ls.map Layout.item) ∧
      (layout_fields ls o a).2.toNat = max a.toNat (maxAlign (ls.map Layout.item)) := by
  induction ls generalizing o a with
  | nil => exact ⟨rfl, (Nat.max_eq_left ha).symm⟩
  | cons l ls ih =>
    have hl := (h l (.head _)).dvd
    rw [List.map_cons]
    unfold layout_fields wrapFinish
    have hmax := max_toNat l.alignment a
    obtain ⟨h1, h2⟩ := ih (fun l' hl' => h l' (.tail l hl'))
      (a := if l.alignment > a then l.alignment else a) (by omega)
    rw [h1, h2, field_end_toNat o hl, hmax]
    refine ⟨rfl, ?_⟩
    show _ = max _ (max l.alignment.toNat (maxAlign _))
    omega

omit h in
theorem max_payload_toNat {s : UInt64} (ha : 1 ≤ a.toNat) :
    (max_payload ls s a).1.toNat = max s.toNat (maxSize (ls.map Layout.item)) ∧
      (max_payload ls s a).2.toNat = max a.toNat (maxAlign (ls.map Layout.item)) := by
  induction ls generalizing s a with
  | nil => exact ⟨(Nat.max_eq_left (Nat.zero_le _)).symm, (Nat.max_eq_left ha).symm⟩
  | cons l ls ih =>
    rw [List.map_cons]
    unfold max_payload
    have hmax := max_toNat l.alignment a
    obtain ⟨h1, h2⟩ := ih (s := if l.size > s then l.size else s)
      (a := if l.alignment > a then l.alignment else a) (by omega)
    rw [h1, h2, max_toNat, hmax]
    constructor
    · show _ = max _ (max l.size.toNat (maxSize _))
      omega
    · show _ = max _ (max l.alignment.toNat (maxAlign _))
      omega

theorem maxAlign_dvd : maxAlign (ls.map Layout.item) ∣ 16 := by
  apply maxAlign_of (P := (· ∣ 16)) (by decide)
  intro i hi
  obtain ⟨l, hl, rfl⟩ := List.mem_map.mp hi
  exact (h l hl).dvd

theorem layout_of_fields_toNat : let n := wrapFinish (2 ^ 64) 0 (ls.map Layout.item)
    (layout_of_fields ls).size.toNat = (n + padding n (maxAlign (ls.map Layout.item))) % 2 ^ 64 ∧
      (layout_of_fields ls).alignment.toNat = maxAlign (ls.map Layout.item) := by
  unfold layout_of_fields
  split
  · rename_i hnil
    rw [List.isEmpty_iff.mp hnil]
    exact ⟨rfl, rfl⟩
  · obtain ⟨h1, h2⟩ := layout_fields_toNat (o := 0) (a := 1) h (by decide)
    have halign : (layout_fields ls 0 1).2.toNat = maxAlign (ls.map Layout.item) :=
      h2.trans (Nat.max_eq_right (one_le_maxAlign _))
    have hdvd : (layout_fields ls 0 1).2.toNat ∣ 16 := halign ▸ maxAlign_dvd h
    refine ⟨?_, halign⟩
    show (_ + padding_to _ _).toNat = _
    rw [toNat_add, padding_to_toNat _ hdvd, h1, halign]
    rfl

theorem layout_of_fields_usual : (layout_of_fields ls).Usual ∧
      (layout_of_fields ls).alignment.toNat ∣ (layout_of_fields ls).size.toNat := by
  obtain ⟨h1, h2⟩ := layout_of_fields_toNat h
  have hdvd := maxAlign_dvd h
  refine ⟨Layout.usual_of_dvd (h2 ▸ hdvd), ?_⟩
  rw [h1, h2, Nat.dvd_mod_iff (hdvd.trans (by decide))]
  exact dvd_roundUp _ (Nat.pos_of_dvd_of_pos hdvd (by decide))

end

/-- The fields stand in order in the layout, each at a multiple of its alignment
and behind the one before. -/
def FieldsPlaced (ls : List Layout) (l : Layout) : Prop :=
  Placed 0 (((field_offsets ls 0).map UInt64.toNat).zip (ls.map Layout.item)) l.size.toNat

section

variable (h : ∀ l ∈ ls, l.Usual)

include h

theorem fields_placed_iff :
    FieldsPlaced ls (layout_of_fields ls) ↔ (aggregate (ls.map Layout.item)).size < 2 ^ 64 := by
  have hitems : ∀ i ∈ ls.map Layout.item, 0 < i.align ∧ i.align ≤ 2 ^ 64 := by
    intro i hi
    obtain ⟨l, hl, rfl⟩ := List.mem_map.mp hi
    have hdvd := (h l hl).dvd
    exact ⟨pos_of_dvd hdvd, (le_of_dvd hdvd).trans (by decide)⟩
  have hpos := Nat.pos_of_dvd_of_pos (maxAlign_dvd h) (by decide)
  obtain ⟨hsize, -⟩ := layout_of_fields_toNat h
  have hlt : (layout_of_fields ls).size.toNat < 2 ^ 64 := toNat_lt _
  unfold FieldsPlaced
  rw [field_offsets_toNat h]
  show Placed 0 ((wrapStarts (2 ^ 64) 0 _).zip _) _ ↔ roundUp _ _ < _
  constructor
  · intro hplaced
    obtain ⟨h1, h2⟩ := finish_lt_of_placed (by decide) hlt hitems hplaced
    rw [hsize, (wrap_of_finish_lt h1).2] at h2
    have hpad := padding_lt (finish 0 (ls.map Layout.item)) hpos
    have hle := Nat.le_of_dvd (by decide) (maxAlign_dvd h)
    exact add_lt_of_le_mod h1 (by omega) h2
  · intro hfit
    have hfin := (le_roundUp (finish 0 (ls.map Layout.item)) (maxAlign (ls.map Layout.item)))
    obtain ⟨h1, h2⟩ := wrap_of_finish_lt (hfin.trans_lt hfit)
    rw [h1, placed_starts_iff fun i hi => (hitems i hi).1, hsize, h2]
    show _ ≤ roundUp _ _ % _
    rw [Nat.mod_eq_of_lt hfit]
    exact hfin

theorem layout_of_fields_item (hfit : (aggregate (ls.map Layout.item)).size < 2 ^ 64) :
    (layout_of_fields ls).item = aggregate (ls.map Layout.item) := by
  obtain ⟨hsize, halign⟩ := layout_of_fields_toNat h
  have hfin := (le_roundUp (finish 0 (ls.map Layout.item)) (maxAlign (ls.map Layout.item)))
  rw [(wrap_of_finish_lt (hfin.trans_lt hfit)).2] at hsize
  exact Item.ext (hsize.trans (Nat.mod_eq_of_lt hfit)) halign

/-! ## One enum -/

omit h in
/-- `align_up` rounds the wrapped sum down. -/
theorem align_up_toNat (o : UInt64) (h : a.toNat ∣ 16) :
    (align_up o a).toNat = (o.toNat + a.toNat - 1) % 2 ^ 64 / a.toNat * a.toNat := by
  have hpos := pos_of_dvd h
  have hne : a ≠ 0 := by
    rintro rfl
    cases hpos
  have hsum : (o + a - 1).toNat = (o.toNat + a.toNat - 1) % 2 ^ 64 := by
    rw [UInt64.toNat_sub, toNat_add]
    show (2 ^ 64 - 1 + _) % 2 ^ 64 = _
    omega
  have hlt : (o + a - 1).toNat < 2 ^ 64 := toNat_lt _
  unfold align_up
  rw [if_neg hne, UInt64.toNat_and, hsum]
  rw [hsum] at hlt
  rcases Layout.usual_of_dvd (l := ⟨0, a⟩) h with rfl | rfl | rfl | rfl | rfl
  · exact and_high (j := 0) (k := 64) hlt
  · exact and_high (j := 1) (k := 63) hlt
  · exact and_high (j := 2) (k := 62) hlt
  · exact and_high (j := 3) (k := 61) hlt
  · exact and_high (j := 4) (k := 60) hlt

omit h in
theorem align_up_fits (h : a.toNat ∣ 16) (hfit : roundUp o.toNat a.toNat < 2 ^ 64) :
    (align_up o a).toNat = roundUp o.toNat a.toNat := by
  have hpos := pos_of_dvd h
  obtain ⟨c, hc⟩ := dvd_roundUp o.toNat hpos
  obtain ⟨d, hd⟩ := dvd_word h
  have hle := le_roundUp o.toNat a.toNat
  -- the next multiple is below 2^64, so it is a whole step below
  have hstep : roundUp o.toNat a.toNat + a.toNat ≤ 2 ^ 64 := by
    rw [hc, hd] at hfit
    have hcd := Nat.lt_of_mul_lt_mul_left hfit
    rw [hc, hd, ← Nat.mul_succ]
    exact Nat.mul_le_mul_left _ hcd
  rw [align_up_toNat o h, Nat.mod_eq_of_lt (by omega), div_mul_eq_roundUp _ hpos]

omit h in
/-- If it does not fall below its argument, it did not go round. -/
theorem align_up_le (h : a.toNat ∣ 16) (hle : o.toNat ≤ (align_up o a).toNat) :
    roundUp o.toNat a.toNat < 2 ^ 64 := by
  have hpos := pos_of_dvd h
  have hlt : o.toNat < 2 ^ 64 := toNat_lt _
  have ha := le_of_dvd h
  rw [align_up_toNat o h] at hle
  by_cases hsum : o.toNat + a.toNat - 1 < 2 ^ 64
  · have hup := roundUp_lt o.toNat hpos
    omega
  · exfalso
    have hwrap : (o.toNat + a.toNat - 1) % 2 ^ 64 < a.toNat := by omega
    rw [Nat.div_eq_of_lt hwrap] at hle
    omega

omit h in
theorem dvd_of_le : ∀ n ≤ 16, ∀ m ≤ 16, n ∣ 16 → m ∣ 16 → n ≤ m → n ∣ m := by
  decide

theorem max_payload_align : (max_payload ls 0 1).2.toNat = maxAlign (ls.map Layout.item) ∧
      (max_payload ls 0 1).2.toNat ∣ 16 := by
  obtain ⟨-, h2⟩ := @max_payload_toNat ls 1 0 (by decide)
  have halign : (max_payload ls 0 1).2.toNat = maxAlign (ls.map Layout.item) :=
    h2.trans (Nat.max_eq_right (one_le_maxAlign _))
  exact ⟨halign, halign ▸ maxAlign_dvd h⟩

theorem payload_offset_toNat : (payload_offset ls).toNat = payloadStart (ls.map Layout.item) := by
  obtain ⟨halign, hdvd⟩ := max_payload_align h
  have hup := roundUp_lt 8 (pos_of_dvd hdvd)
  have hle := le_of_dvd hdvd
  unfold payload_offset payloadStart
  rw [align_up_fits hdvd (show roundUp 8 _ < _ by omega), halign]
  rfl

theorem payload_offset_aligned :
    8 ≤ (payload_offset ls).toNat ∧ ∀ l ∈ ls, l.alignment.toNat ∣ (payload_offset ls).toNat := by
  have hmax := maxAlign_dvd h
  rw [payload_offset_toNat h]
  refine ⟨le_roundUp 8 _, ?_⟩
  intro l hl
  have hdvd := (h l hl).dvd
  have hle : l.item.align ≤ maxAlign (ls.map Layout.item) :=
    align_le_maxAlign (List.mem_map_of_mem hl)
  have hchain := dvd_of_le _ (le_of_dvd hdvd) _ (Nat.le_of_dvd (by decide) hmax) hdvd hmax hle
  exact hchain.trans (dvd_roundUp 8 (Nat.pos_of_dvd_of_pos hmax (by decide)))

omit h in
theorem max_eight_toNat (a : UInt64) : (max 8 a).toNat = max 8 a.toNat := by
  change (if (8 : UInt64) ≤ a then a else 8).toNat = _
  split
  · rename_i h
    exact (Nat.max_eq_right (le_iff_toNat_le.mp h)).symm
  · rename_i h
    exact (Nat.max_eq_left (le_iff_toNat_le.mp (UInt64.le_of_lt (UInt64.not_le.mp h)))).symm

omit h in
theorem max_eight_dvd (h : a.toNat ∣ 16) : (max 8 a).toNat ∣ 16 := by
  rw [max_eight_toNat]
  rcases max_choice 8 a.toNat with hmax | hmax
  · rw [hmax]
    decide
  · rw [hmax]
    exact h

theorem layout_of_payloads_usual : (layout_of_payloads ls).Usual ∧
      (layout_of_payloads ls).alignment.toNat ∣ (layout_of_payloads ls).size.toNat := by
  obtain ⟨-, hdvd⟩ := max_payload_align h
  have hmax := max_eight_dvd hdvd
  refine ⟨Layout.usual_of_dvd hmax, ?_⟩
  show (max (8 : UInt64) _).toNat ∣ (align_up _ (max 8 _)).toNat
  rw [align_up_toNat _ hmax]
  exact Nat.dvd_mul_left _ _

end

/-- Every payload ends within the enum. -/
def PayloadsFit (ls : List Layout) (l : Layout) : Prop :=
  ∀ pl ∈ ls, (payload_offset ls).toNat + pl.size.toNat ≤ l.size.toNat

theorem layout_of_payloads_size (h : ∀ l ∈ ls, l.Usual)
    (hbody : payloadStart (ls.map Layout.item) + maxSize (ls.map Layout.item) < 2 ^ 64) :
    ∃ o b : UInt64, o.toNat = payloadStart (ls.map Layout.item) + maxSize (ls.map Layout.item) ∧
      b.toNat = (tagged (ls.map Layout.item)).align ∧ b.toNat ∣ 16 ∧
      layout_of_payloads ls = ⟨align_up o b, b⟩ := by
  obtain ⟨halign, hdvd⟩ := max_payload_align h
  have hsize := (@max_payload_toNat ls 1 0 (by decide)).1
  refine ⟨payload_offset ls + (max_payload ls 0 1).1, max 8 (max_payload ls 0 1).2, ?_, ?_,
    max_eight_dvd hdvd, rfl⟩
  · rw [toNat_add, payload_offset_toNat h, hsize]
    rw [show max (UInt64.toNat 0) (maxSize (ls.map Layout.item)) = maxSize (ls.map Layout.item) from
      Nat.max_eq_right (Nat.zero_le _)]
    exact Nat.mod_eq_of_lt hbody
  · rw [max_eight_toNat, halign]
    rfl

theorem payloads_fit_iff (h : ∀ l ∈ ls, l.Usual) :
    PayloadsFit ls (layout_of_payloads ls) ↔ (tagged (ls.map Layout.item)).size < 2 ^ 64 := by
  have hlt : (layout_of_payloads ls).size.toNat < 2 ^ 64 := toNat_lt _
  have hoff := payload_offset_toNat h
  constructor
  · intro hfit
    have hstart : payloadStart (ls.map Layout.item) < 2 ^ 64 := hoff ▸ toNat_lt _
    by_cases hnil : ls = []
    · rw [hnil]
      decide
    · -- the largest payload ends within the enum as well
      have hbody : payloadStart (ls.map Layout.item) + maxSize (ls.map Layout.item)
          ≤ (layout_of_payloads ls).size.toNat := by
        obtain ⟨l, hl⟩ := List.exists_mem_of_ne_nil ls hnil
        have hfirst := hfit l hl
        have hmax : maxSize (ls.map Layout.item)
            ≤ (layout_of_payloads ls).size.toNat - payloadStart (ls.map Layout.item) := by
          apply maxSize_le
          intro i hi
          obtain ⟨pl, hpl, rfl⟩ := List.mem_map.mp hi
          have := hfit pl hpl
          show pl.size.toNat ≤ _
          omega
        omega
      obtain ⟨o, b, ho, hb, hdvd, heq⟩ := layout_of_payloads_size h (hbody.trans_lt hlt)
      rw [heq, ← ho] at hbody
      have hup := align_up_le hdvd hbody
      rw [ho, hb] at hup
      exact hup
  · intro hfit pl hpl
    have hround := le_roundUp (payloadStart (ls.map Layout.item) + maxSize (ls.map Layout.item))
      (tagged (ls.map Layout.item)).align
    have hbody := hround.trans_lt hfit
    obtain ⟨o, b, ho, hb, hdvd, heq⟩ := layout_of_payloads_size h hbody
    rw [hoff, heq]
    show _ ≤ (align_up o b).toNat
    rw [align_up_fits hdvd (by rw [ho, hb]; exact hfit), ho, hb]
    have hpl : pl.size.toNat ≤ maxSize (ls.map Layout.item) :=
      size_le_maxSize (i := pl.item) (List.mem_map_of_mem hpl)
    omega

theorem layout_of_payloads_item (h : ∀ l ∈ ls, l.Usual)
    (hfit : (tagged (ls.map Layout.item)).size < 2 ^ 64) :
    (layout_of_payloads ls).item = tagged (ls.map Layout.item) := by
  have hround := le_roundUp (payloadStart (ls.map Layout.item) + maxSize (ls.map Layout.item))
    (tagged (ls.map Layout.item)).align
  obtain ⟨o, b, ho, hb, hdvd, heq⟩ := layout_of_payloads_size h (hround.trans_lt hfit)
  rw [heq]
  apply Item.ext
  · show (align_up o b).toNat = _
    rw [align_up_fits hdvd (by rw [ho, hb]; exact hfit), ho, hb]
    rfl
  · exact hb

end paideia_as_types
