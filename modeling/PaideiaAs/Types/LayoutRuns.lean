-- `layout_of` over whole types: the layouts of the parts that a type holds by
-- value, and the size that the type takes in plain numbers.
import PaideiaAs.Types.Layout

namespace paideia_as_types

open Placement
open List (mapM_cons map_congr_left map_map mem_cons mem_flatMap mem_map mem_map_of_mem)
open TypeInterner (Local fold_eq has_iff)
open Layout (item)

/-! ## What a type takes -/

/-- The types that a type holds by value. -/
def Ty.held : Ty → List TypeId
  | .Record fields => fields.map (·.2)
  | .Enum variants => variants.flatMap (·.2.children)
  | _ => []

/-- A type from the items of the types it holds. -/
def Ty.taken (ty : Ty) (g : TypeId → Item) : Item :=
  match ty with
  | .Record fields => aggregate (fields.map fun f => g f.2)
  | .Enum variants => tagged (variants.map fun v => aggregate (v.2.children.map g))
  | ty => ty.fixed_layout.item

/-- The bytes a type takes and its alignment, without a word size. -/
def taken (it : TypeInterner) (t : TypeId) : Item := it.fold ⟨0, 1⟩ Ty.taken t

/-- `c` is `t` or stands in it by value, at some depth. -/
def Holds (it : TypeInterner) : TypeId → TypeId → Prop :=
  Relation.ReflTransGen fun t c => ∃ ty, it.types[t.index]? = some ty ∧ c ∈ ty.held

/-- The layout `l` of `ty` is good, over the layouts that `layout_of` gives the
types that `ty` holds. -/
structure WellLaid (layout_of : TypeId → Outcome Layout) (ty : Ty) (l : Layout) : Prop where
  power_of_two : ∃ k, l.alignment.toNat = 2 ^ k
  multiple : l.alignment.toNat ∣ l.size.toNat
  record : ∀ fields, ty = .Record fields →
    ∃ ls, fields.mapM (fun f => layout_of f.2) = .ok ls ∧ FieldsPlaced ls l
  payloads : ∀ variants, ty = .Enum variants →
    ∃ pls, variants.mapM (fun v => layout_of_payload layout_of v.2) = .ok pls ∧
      8 ≤ (payload_offset pls).toNat ∧
      (∀ pl ∈ pls, pl.alignment.toNat ∣ (payload_offset pls).toNat) ∧ PayloadsFit pls l
  payload_fields : ∀ variants, ty = .Enum variants → ∀ v ∈ variants,
    ∃ ls pl, v.2.children.mapM layout_of = .ok ls ∧ layout_of_payload layout_of v.2 = .ok pl ∧
      FieldsPlaced ls pl

/-! ## One type -/

theorem mapM_ok {α β : Type} {f : α → Outcome β} {g : α → β} {xs : List α}
    (h : ∀ x ∈ xs, f x = .ok (g x)) : xs.mapM f = .ok (xs.map g) := by
  induction xs with
  | nil => rfl
  | cons x xs ih =>
    rw [mapM_cons, h x (List.mem_cons_self ..), ih fun y hy => h y (List.mem_cons_of_mem x hy)]
    rfl

section

variable {f : TypeId → Outcome Layout} {g : TypeId → Layout} {ty : Ty}

theorem layout_of_payload_ok {p : EnumPayload} (h : ∀ c ∈ p.children, f c = .ok (g c)) :
    layout_of_payload f p = .ok (layout_of_fields (p.children.map g)) := by
  cases p with
  | Unit => rfl
  | Tuple ts =>
    show layout_of_tuple_payload f ts = _
    unfold layout_of_tuple_payload
    rw [@mapM_ok _ _ _ _ ts h]
    rfl
  | Record fs =>
    show layout_of_record f fs = _
    unfold layout_of_record
    rw [mapM_ok (g := fun x => g x.2) fun x hx => h x.2 (mem_map_of_mem hx)]
    unfold EnumPayload.children
    rw [map_map]
    rfl

def payloadLayouts (g : TypeId → Layout) (variants : List (Nat × EnumPayload)) : List Layout :=
  variants.map fun v => layout_of_fields (v.2.children.map g)

/-- The layout of a type from those of the types it holds. -/
def Ty.layoutBy (ty : Ty) (g : TypeId → Layout) : Layout :=
  match ty with
  | .Record fields => layout_of_fields (fields.map fun f => g f.2)
  | .Enum variants => layout_of_payloads (payloadLayouts g variants)
  | ty => ty.fixed_layout

theorem mapM_payloads {variants : List (Nat × EnumPayload)}
    (h : ∀ c ∈ (Ty.Enum variants).held, f c = .ok (g c)) :
    variants.mapM (fun v => layout_of_payload f v.2) = .ok (payloadLayouts g variants) := by
  apply mapM_ok
  intro v hv
  exact layout_of_payload_ok fun c hc => h c (mem_flatMap.mpr ⟨v, hv, hc⟩)

theorem layout_eq_layoutBy (h : ∀ c ∈ ty.held, f c = .ok (g c)) :
    ty.layout f = .ok (ty.layoutBy g) := by
  cases ty
  case Record fields =>
    show layout_of_record f fields = _
    unfold layout_of_record
    rw [mapM_ok (g := fun x => g x.2) fun x hx => h x.2 (mem_map_of_mem hx)]
    rfl
  case Enum variants =>
    show layout_of_enum f variants = _
    unfold layout_of_enum
    rw [mapM_payloads h]
    rfl
  all_goals rfl

theorem fixed_layout_usual (ty : Ty) :
    ty.fixed_layout.Usual ∧ ty.fixed_layout.alignment.toNat ∣ ty.fixed_layout.size.toNat := by
  unfold Ty.fixed_layout
  split <;> (try split_ifs) <;> decide

theorem payloadLayouts_usual {variants : List (Nat × EnumPayload)}
    (h : ∀ c ∈ (Ty.Enum variants).held, (g c).Usual) : ∀ pl ∈ payloadLayouts g variants, pl.Usual := by
  intro pl hpl
  obtain ⟨v, hv, rfl⟩ := mem_map.mp hpl
  refine (layout_of_fields_usual ?_).1
  intro l hl
  obtain ⟨c, hc, rfl⟩ := mem_map.mp hl
  exact h c (mem_flatMap.mpr ⟨v, hv, hc⟩)

theorem fields_usual {fields : List (Nat × TypeId)}
    (h : ∀ c ∈ (Ty.Record fields).held, (g c).Usual) : ∀ l ∈ fields.map (fun f => g f.2), l.Usual := by
  intro l hl
  obtain ⟨x, hx, rfl⟩ := mem_map.mp hl
  exact h x.2 (mem_map_of_mem hx)

/-- Alignments stay powers of two up to 16, and sizes multiples of them. -/
theorem layoutBy_usual (h : ∀ c ∈ ty.held, (g c).Usual) :
    (ty.layoutBy g).Usual ∧ (ty.layoutBy g).alignment.toNat ∣ (ty.layoutBy g).size.toNat := by
  cases ty
  case Record => exact layout_of_fields_usual (fields_usual h)
  case Enum => exact layout_of_payloads_usual (payloadLayouts_usual h)
  all_goals exact fixed_layout_usual _

section

variable {G : TypeId → Item} (hf : ∀ c ∈ ty.held, f c = .ok (g c))
  (hu : ∀ c ∈ ty.held, (g c).Usual) (hG : ∀ c ∈ ty.held, (g c).item = G c)

theorem map_item {cs : List TypeId} (h : ∀ c ∈ cs, (g c).item = G c) :
    (cs.map g).map item = cs.map G := by
  rw [map_map]
  exact map_congr_left h

include hf hu in
/-- What a good layout adds to what every layout has. -/
theorem wellLaid_iff : WellLaid f ty (ty.layoutBy g) ↔
    (∀ fields, ty = .Record fields →
      FieldsPlaced (fields.map fun x => g x.2) (ty.layoutBy g)) ∧
    ∀ variants, ty = .Enum variants →
      PayloadsFit (payloadLayouts g variants) (ty.layoutBy g) ∧ ∀ v ∈ variants,
        FieldsPlaced (v.2.children.map g) (layout_of_fields (v.2.children.map g)) := by
  obtain ⟨husual, hdvd⟩ := layoutBy_usual hu
  constructor
  · intro hw
    refine ⟨?_, ?_⟩
    · rintro fields rfl
      obtain ⟨ls, hls, hplaced⟩ := hw.record fields rfl
      rw [mapM_ok (g := fun x => g x.2) fun x hx => hf x.2 (mem_map_of_mem hx)] at hls
      cases hls
      exact hplaced
    · rintro variants rfl
      obtain ⟨pls, hpls, -, -, hfit⟩ := hw.payloads variants rfl
      rw [mapM_payloads hf] at hpls
      cases hpls
      refine ⟨hfit, ?_⟩
      intro v hv
      have hchildren : ∀ c ∈ v.2.children, f c = .ok (g c) :=
        fun c hc => hf c (mem_flatMap.mpr ⟨v, hv, hc⟩)
      obtain ⟨ls, pl, hls, hpl, hplaced⟩ := hw.payload_fields variants rfl v hv
      rw [mapM_ok hchildren] at hls
      rw [layout_of_payload_ok hchildren] at hpl
      cases hls
      cases hpl
      exact hplaced
  · rintro ⟨hrecord, henum⟩
    refine ⟨husual.pow, hdvd, ?_, ?_, ?_⟩
    · rintro fields rfl
      exact ⟨_, mapM_ok (g := fun x => g x.2) fun x hx => hf x.2 (mem_map_of_mem hx),
        hrecord fields rfl⟩
    · rintro variants rfl
      obtain ⟨h8, haligned⟩ := payload_offset_aligned (payloadLayouts_usual hu)
      exact ⟨_, mapM_payloads hf, h8, haligned, (henum variants rfl).1⟩
    · rintro variants rfl v hv
      have hchildren : ∀ c ∈ v.2.children, f c = .ok (g c) :=
        fun c hc => hf c (mem_flatMap.mpr ⟨v, hv, hc⟩)
      exact ⟨_, _, mapM_ok hchildren, layout_of_payload_ok hchildren, (henum variants rfl).2 v hv⟩

include hu hG in
theorem payloadLayouts_items {variants : List (Nat × EnumPayload)} (hty : ty = .Enum variants)
    (hfit : ∀ v ∈ variants, (aggregate (v.2.children.map G)).size < 2 ^ 64) :
    (payloadLayouts g variants).map item
      = variants.map fun v => aggregate (v.2.children.map G) := by
  subst hty
  unfold payloadLayouts
  rw [map_map]
  apply map_congr_left
  intro v hv
  have hmem : ∀ c ∈ v.2.children, c ∈ (Ty.Enum variants).held :=
    fun c hc => mem_flatMap.mpr ⟨v, hv, hc⟩
  have hitems := @map_item _ _ v.2.children fun c hc => hG c (hmem c hc)
  show (layout_of_fields _).item = _
  rw [layout_of_fields_item, hitems]
  · intro l hl
    obtain ⟨c, hc, rfl⟩ := mem_map.mp hl
    exact hu c (hmem c hc)
  · rw [hitems]
    exact hfit v hv

/-- The payload of a variant takes no more than the enum. -/
theorem payload_fits {variants : List (Nat × EnumPayload)} {k : Nat}
    (hfit : ((Ty.Enum variants).taken G).size < k) :
    ∀ v ∈ variants, (aggregate (v.2.children.map G)).size < k := by
  intro v hv
  have hmem : aggregate (v.2.children.map G)
      ∈ variants.map fun v => aggregate (v.2.children.map G) := mem_map_of_mem hv
  exact (size_le_tagged hmem).trans_lt hfit

theorem held_size_le {c : TypeId} (hc : c ∈ ty.held) : (G c).size ≤ (ty.taken G).size := by
  cases ty
  case Record fields =>
    obtain ⟨x, hx, rfl⟩ := mem_map.mp hc
    exact size_le_aggregate (mem_map_of_mem (f := fun x => G x.2) hx)
  case Enum variants =>
    obtain ⟨v, hv, hc⟩ := mem_flatMap.mp hc
    have hmem : aggregate (v.2.children.map G)
        ∈ variants.map fun v => aggregate (v.2.children.map G) := mem_map_of_mem hv
    exact (size_le_aggregate (mem_map_of_mem hc)).trans (size_le_tagged hmem)
  all_goals cases hc

include hu hG in
theorem layoutBy_item (hfit : (ty.taken G).size < 2 ^ 64) : (ty.layoutBy g).item = ty.taken G := by
  cases ty
  case Record fields =>
    have hitems : (fields.map fun x => g x.2).map item = fields.map fun x => G x.2 := by
      rw [map_map]
      exact map_congr_left fun x hx => hG x.2 (mem_map_of_mem hx)
    show (layout_of_fields _).item = aggregate _
    rw [layout_of_fields_item (fields_usual hu) (by rw [hitems]; exact hfit), hitems]
  case Enum variants =>
    have hitems := payloadLayouts_items hu hG rfl (payload_fits hfit)
    show (layout_of_payloads _).item = tagged _
    rw [layout_of_payloads_item (payloadLayouts_usual hu) (by rw [hitems]; exact hfit), hitems]
  all_goals rfl

include hf hu hG in
/-- One step of the exact condition: over good parts, a layout is good when the
type takes less than 2^64 bytes. -/
theorem wellLaid_iff_fits : WellLaid f ty (ty.layoutBy g) ↔ (ty.taken G).size < 2 ^ 64 := by
  rw [wellLaid_iff hf hu]
  cases ty
  case Record fields =>
    have hitems : (fields.map fun x => g x.2).map item = fields.map fun x => G x.2 := by
      rw [map_map]
      exact map_congr_left fun x hx => hG x.2 (mem_map_of_mem hx)
    have hplaced := fields_placed_iff (fields_usual hu)
    rw [hitems] at hplaced
    constructor
    · intro h
      exact hplaced.mp (h.1 fields rfl)
    · intro h
      refine ⟨?_, ?_⟩
      · rintro _ ⟨⟩
        exact hplaced.mpr h
      · intro variants hv
        cases hv
  case Enum variants =>
    -- the fields of a payload are placed when the payload fits
    have hpayload : ∀ v ∈ variants,
        (FieldsPlaced (v.2.children.map g) (layout_of_fields (v.2.children.map g)) ↔
          (aggregate (v.2.children.map G)).size < 2 ^ 64) := by
      intro v hv
      have hmem : ∀ c ∈ v.2.children, c ∈ (Ty.Enum variants).held :=
        fun c hc => mem_flatMap.mpr ⟨v, hv, hc⟩
      rw [fields_placed_iff, map_item fun c hc => hG c (hmem c hc)]
      intro l hl
      obtain ⟨c, hc, rfl⟩ := mem_map.mp hl
      exact hu c (hmem c hc)
    have hplaced := payloads_fit_iff (payloadLayouts_usual hu)
    constructor
    · intro h
      obtain ⟨hfit, hfields⟩ := h.2 variants rfl
      have hsmall := fun v hv => (hpayload v hv).mp (hfields v hv)
      rw [payloadLayouts_items hu hG rfl hsmall] at hplaced
      exact hplaced.mp hfit
    · intro h
      have hsmall := payload_fits h
      rw [payloadLayouts_items hu hG rfl hsmall] at hplaced
      refine ⟨?_, ?_⟩
      · intro fields hv
        cases hv
      · rintro _ ⟨⟩
        exact ⟨hplaced.mpr h, fun v hv => (hpayload v hv).mpr (hsmall v hv)⟩
  all_goals
    refine ⟨fun _ => UInt64.toNat_lt _, fun _ => ⟨?_, ?_⟩⟩
    · intro fields hv
      cases hv
    · intro variants hv
      cases hv

end

end

/-! ## Whole types -/

section

variable {it : TypeInterner} {t c : TypeId} {ty : Ty} {n m : Nat}

theorem held_children (hc : c ∈ ty.held) : c ∈ ty.children := by
  cases ty <;> first | exact hc | cases hc

theorem taken_local : Local Ty.taken := by
  intro ty g g' h
  cases ty
  case Record fields =>
    have hfield : ∀ x ∈ fields, g x.2 = g' x.2 :=
      fun x hx => h x.2 (mem_map_of_mem (f := (·.2)) hx)
    show aggregate _ = aggregate _
    rw [map_congr_left hfield]
  case Enum variants =>
    have hpayload : ∀ v ∈ variants,
        aggregate (v.2.children.map g) = aggregate (v.2.children.map g') := by
      intro v hv
      rw [map_congr_left fun c hc => h c (held_children (mem_flatMap.mpr ⟨v, hv, hc⟩))]
    show tagged _ = tagged _
    rw [map_congr_left hpayload]
  all_goals rfl

theorem taken_eq (h : it.Good) (ht : it.types[t.index]? = some ty) :
    taken it t = ty.taken (taken it) := fold_eq taken_local h ht

theorem get_eq (ht : it.types[t.index]? = some ty) : it.get t = .ok ty := by
  unfold TypeInterner.get
  rw [ht]
  rfl

def given (r : Outcome Layout) : Layout :=
  match r with
  | .ok l => l
  | .error _ => ⟨0, 1⟩

theorem layout_of_step (ht : it.types[t.index]? = some ty) :
    layout_of it (n + 1) t = ty.layout (layout_of it n) := by
  unfold layout_of
  rw [get_eq ht]
  rfl

section

variable (h : it.Good)

include h

/-- With fuel for the depth of the type the call gives a layout, and more fuel
gives the same. -/
theorem layout_of_ok (ht : it.Has t) (hn : t.index < n) :
    ∃ l, layout_of it n t = .ok l ∧ l.Usual ∧ ∀ m, t.index < m → layout_of it m t = .ok l := by
  induction n generalizing t with
  | zero => omega
  | succ n ih =>
    obtain ⟨ty, hty⟩ := has_iff.mp ht
    have hparts : ∀ c ∈ ty.held, ∃ l, layout_of it n c = .ok l ∧ l.Usual ∧
        ∀ m, c.index < m → layout_of it m c = .ok l := by
      intro c hc
      have hlt := h.child_lt hty (held_children hc)
      exact ih (h.child_has hty (held_children hc)) (by omega)
    have hgiven : ∀ c ∈ ty.held, layout_of it n c = .ok (given (layout_of it n c)) := by
      intro c hc
      obtain ⟨l, hl, -⟩ := hparts c hc
      rw [hl]
      rfl
    refine ⟨_, (layout_of_step hty).trans (layout_eq_layoutBy hgiven), ?_, ?_⟩
    · refine (layoutBy_usual ?_).1
      intro c hc
      obtain ⟨l, hl, hu, -⟩ := hparts c hc
      rw [hl]
      exact hu
    · intro m hm
      obtain ⟨m, rfl⟩ : ∃ k, m = k + 1 := ⟨m - 1, by omega⟩
      rw [layout_of_step hty]
      apply layout_eq_layoutBy
      intro c hc
      have hlt := h.child_lt hty (held_children hc)
      obtain ⟨l, hl, -, hsame⟩ := hparts c hc
      rw [hl, hsame m (by omega)]
      rfl

theorem layout_of_usual (ht : it.Has t) (hn : t.index < n) :
    layout_of it n t = .ok (given (layout_of it n t)) ∧ (given (layout_of it n t)).Usual := by
  obtain ⟨l, hl, hu, -⟩ := layout_of_ok h ht hn
  rw [hl]
  exact ⟨rfl, hu⟩

theorem layout_of_same (ht : it.Has t) (hn : t.index < n) (hm : t.index < m) :
    layout_of it n t = layout_of it m t := by
  obtain ⟨l, hl, -, hsame⟩ := layout_of_ok h ht hn
  rw [hl, hsame m hm]

/-- The layout of a type is that from the layouts of its parts, at one fuel. -/
theorem given_eq (ht : it.types[t.index]? = some ty) (hn : t.index < n) :
    given (layout_of it n t) = ty.layoutBy fun c => given (layout_of it n c) := by
  have hhas : it.Has t := has_iff.mpr ⟨ty, ht⟩
  rw [layout_of_same h hhas hn (show t.index < n + 1 by omega), layout_of_step ht]
  have hparts : ∀ c ∈ ty.held, layout_of it n c = .ok (given (layout_of it n c)) := by
    intro c hc
    have hlt := h.child_lt ht (held_children hc)
    exact (layout_of_usual h (h.child_has ht (held_children hc)) (by omega)).1
  rw [layout_eq_layoutBy hparts]
  rfl

theorem holds_has (ht : it.Has t) (hc : Holds it t c) : it.Has c ∧ c.index ≤ t.index := by
  induction hc with
  | refl => exact ⟨ht, le_rfl⟩
  | tail _ hstep ih =>
    obtain ⟨ty, hty, hmem⟩ := hstep
    have hlt := h.child_lt hty (held_children hmem)
    exact ⟨h.child_has hty (held_children hmem), by omega⟩

/-- What stands in a type takes no more than the type. -/
theorem holds_size_le (hc : Holds it t c) : (taken it c).size ≤ (taken it t).size := by
  induction hc with
  | refl => exact le_rfl
  | tail _ hstep ih =>
    obtain ⟨ty, hty, hmem⟩ := hstep
    rw [taken_eq h hty] at ih
    exact (held_size_le hmem).trans ih

/-- Where all parts take less than 2^64 bytes, the code counts as plain numbers do. -/
theorem given_item (ht : it.Has t) (hn : t.index < n)
    (hsmall : ∀ c, Holds it t c → (taken it c).size < 2 ^ 64) :
    (given (layout_of it n t)).item = taken it t := by
  induction hi : t.index using Nat.strong_induction_on generalizing t with
  | _ i ih =>
    obtain ⟨ty, hty⟩ := has_iff.mp ht
    have hparts : ∀ c ∈ ty.held, it.Has c ∧ c.index < t.index :=
      fun c hc => ⟨h.child_has hty (held_children hc), h.child_lt hty (held_children hc)⟩
    rw [given_eq h hty hn, taken_eq h hty]
    apply layoutBy_item
    · intro c hc
      obtain ⟨hhas, hlt⟩ := hparts c hc
      exact (layout_of_usual h hhas (by omega)).2
    · intro c hc
      obtain ⟨hhas, hlt⟩ := hparts c hc
      refine ih c.index (by omega) hhas (by omega) ?_ rfl
      intro d hd
      exact hsmall d (Relation.ReflTransGen.head ⟨ty, hty, hc⟩ hd)
    · rw [← taken_eq h hty]
      exact hsmall t .refl

/-- One type of a run, over parts whose layouts are exact. -/
theorem given_wellLaid_iff (hty : it.types[t.index]? = some ty) (hn : t.index < n)
    (hitems : ∀ c ∈ ty.held, (given (layout_of it n c)).item = taken it c) :
    WellLaid (layout_of it n) ty (given (layout_of it n t)) ↔ (taken it t).size < 2 ^ 64 := by
  have hparts : ∀ c ∈ ty.held, it.Has c ∧ c.index < n := by
    intro c hc
    have hlt := h.child_lt hty (held_children hc)
    exact ⟨h.child_has hty (held_children hc), by omega⟩
  rw [given_eq h hty hn, taken_eq h hty]
  refine wellLaid_iff_fits ?_ ?_ hitems
  · intro c hc
    obtain ⟨hhas, hlt⟩ := hparts c hc
    exact (layout_of_usual h hhas hlt).1
  · intro c hc
    obtain ⟨hhas, hlt⟩ := hparts c hc
    exact (layout_of_usual h hhas hlt).2

end

/-- The layouts of a type and of all that it holds are good exactly when the type
takes less than 2^64 bytes. -/
theorem layout_of_well_laid_iff (h : it.Good) (ht : it.Has t) (hn : t.index < n) :
    (∀ c, Holds it t c → ∃ ty l, it.get c = .ok ty ∧ layout_of it n c = .ok l ∧
      WellLaid (layout_of it n) ty l) ↔ (taken it t).size < 2 ^ 64 := by
  constructor
  · intro hall
    -- from the parts up: each is exact because those before it are
    have hsmall : ∀ i c, c.index = i → Holds it t c → (taken it c).size < 2 ^ 64 := by
      intro i
      induction i using Nat.strong_induction_on with
      | _ i ih =>
        intro c hi hc
        obtain ⟨hhas, hle⟩ := holds_has h ht hc
        obtain ⟨ty, l, hget, hl, hwell⟩ := hall c hc
        obtain ⟨ty', hty⟩ := TypeInterner.has_iff.mp hhas
        rw [get_eq hty] at hget
        cases hget
        have hgiven : l = given (layout_of it n c) := by rw [hl]; rfl
        rw [hgiven] at hwell
        refine (given_wellLaid_iff h hty (by omega) ?_).mp hwell
        intro d hd
        have hlt := h.child_lt hty (held_children hd)
        apply given_item h (h.child_has hty (held_children hd)) (by omega)
        intro e he
        have hdown : Holds it t d := hc.tail ⟨ty, hty, hd⟩
        have hed := (holds_has h (h.child_has hty (held_children hd)) he).2
        exact ih e.index (by omega) e rfl (hdown.trans he)
    exact hsmall t.index t rfl .refl
  · intro hfit c hc
    obtain ⟨hhas, hle⟩ := holds_has h ht hc
    obtain ⟨ty, hty⟩ := TypeInterner.has_iff.mp hhas
    obtain ⟨hl, -⟩ := layout_of_usual h hhas (show c.index < n by omega)
    refine ⟨ty, _, get_eq hty, hl, ?_⟩
    refine (given_wellLaid_iff h hty (by omega) ?_).mpr ((holds_size_le h hc).trans_lt hfit)
    intro d hd
    have hlt := h.child_lt hty (held_children hd)
    apply given_item h (h.child_has hty (held_children hd)) (by omega)
    intro e he
    have hdown : Holds it t e := (hc.tail ⟨ty, hty, hd⟩).trans he
    exact (holds_size_le h hdown).trans_lt hfit

end

/-- A byte, a word, a record of both and an enum with the record as a payload. -/
def tagged_pair : TypeInterner :=
  ⟨[.UInt 8, .UInt 64, .Record [(0, ⟨0⟩), (1, ⟨1⟩)], .Enum [(2, .Unit), (3, .Tuple [⟨2⟩, ⟨0⟩])]]⟩

theorem tagged_pair_well_laid : layout_of tagged_pair 4 ⟨3⟩ = .ok ⟨32, 8⟩ ∧
    ∀ c, Holds tagged_pair ⟨3⟩ c → ∃ ty l, tagged_pair.get c = .ok ty ∧
      layout_of tagged_pair 4 c = .ok l ∧ WellLaid (layout_of tagged_pair 4) ty l := by
  have hgood : tagged_pair.Good := by decide
  exact ⟨rfl, (layout_of_well_laid_iff hgood (by decide) (by decide)).mpr (by decide)⟩

/-! ## A type that is too large

Records that each hold the one before twice: after 61 of them the size is back
at 0. -/

/-- A word, and `n` records over it. -/
def doubled (n : Nat) : TypeInterner :=
  ⟨.UInt 64 :: (List.range n).map fun i => .Record [(0, ⟨i⟩), (1, ⟨i⟩)]⟩

theorem doubled_get {n i : Nat} (h : i < n) :
    (doubled n).types[i + 1]? = some (.Record [(0, ⟨i⟩), (1, ⟨i⟩)]) := by
  unfold doubled
  rw [List.getElem?_cons_succ, List.getElem?_map, List.getElem?_range h]
  rfl

theorem doubled_good (n : Nat) : (doubled n).Good := by
  constructor
  · intro i ty hi c hc
    cases i with
    | zero =>
      cases hi
      cases hc
    | succ i =>
      have hlt : i < n := by
        have := (List.getElem?_eq_some_iff.mp hi).1
        unfold doubled at this
        simpa using this
      rw [doubled_get hlt] at hi
      cases hi
      have hc : c = ⟨i⟩ := by
        rcases mem_cons.mp hc with hc | hc
        · exact hc
        · exact List.mem_singleton.mp hc
      rw [hc]
      exact Nat.lt_succ_self i
  · intro ty hty m k hv
    rcases mem_cons.mp hty with rfl | hty
    · cases hv
    · obtain ⟨i, -, rfl⟩ := mem_map.mp hty
      cases hv
  · apply List.nodup_cons.mpr
    refine ⟨?_, ?_⟩
    · intro h
      obtain ⟨i, -, hi⟩ := mem_map.mp h
      cases hi
    · apply List.Nodup.map _ List.nodup_range
      intro i j hij
      cases hij
      rfl

theorem layout_of_twice {s : UInt64} (h : s % 8 = 0) :
    layout_of_fields [⟨s, 8⟩, ⟨s, 8⟩] = ⟨s + s, 8⟩ := by
  have hnone : ∀ x : UInt64, x % 8 = 0 → padding_to x 8 = 0 := by
    intro x hx
    unfold padding_to
    rw [hx]
    rfl
  have htwice : (s + s) % 8 = 0 := by
    rw [← UInt64.toNat_inj] at h ⊢
    rw [UInt64.toNat_mod] at h ⊢
    rw [UInt64.toNat_add]
    change s.toNat % 8 = 0 at h
    show (s.toNat + s.toNat) % 2 ^ 64 % 8 = 0
    omega
  have hfirst : field_offset 0 ⟨s, 8⟩ + s = s := by
    unfold field_offset
    rw [hnone 0 rfl]
    simp
  show (⟨_ + s + padding_to (field_offset (field_offset 0 ⟨s, 8⟩ + s) ⟨s, 8⟩ + s) 8, 8⟩ : Layout) = _
  rw [hfirst]
  have hsecond : field_offset s ⟨s, 8⟩ = s := by
    unfold field_offset
    rw [hnone s h]
    simp
  rw [hsecond, hnone _ htwice]
  simp

theorem layout_of_doubled {n i fuel : Nat} (hi : i ≤ n) (hfuel : i < fuel) :
    layout_of (doubled n) fuel ⟨i⟩ = .ok ⟨UInt64.ofNat (8 * 2 ^ i), 8⟩ := by
  induction i generalizing fuel with
  | zero =>
    obtain ⟨fuel, rfl⟩ : ∃ k, fuel = k + 1 := ⟨fuel - 1, by omega⟩
    rfl
  | succ i ih =>
    obtain ⟨fuel, rfl⟩ : ∃ k, fuel = k + 1 := ⟨fuel - 1, by omega⟩
    rw [layout_of_step (doubled_get (by omega))]
    show layout_of_record _ _ = _
    have hpart : layout_of (doubled n) fuel ⟨i⟩ = .ok ⟨UInt64.ofNat (8 * 2 ^ i), 8⟩ :=
      ih (by omega) (by omega)
    have hmul : UInt64.ofNat (8 * 2 ^ i) % 8 = 0 := by
      rw [← UInt64.toNat_inj, UInt64.toNat_mod]
      show (8 * 2 ^ i) % 2 ^ 64 % 8 = 0
      omega
    unfold layout_of_record
    rw [mapM_cons, mapM_cons, List.mapM_nil, hpart]
    show Except.ok (layout_of_fields [_, _]) = _
    rw [layout_of_twice hmul, ← UInt64.ofNat_add, ← Nat.two_mul, Nat.pow_succ, Nat.mul_left_comm,
      Nat.mul_comm 2]

/-- Two records of 2^63 bytes in a record of size 0. -/
theorem layout_of_loses_record : (doubled 61).Good ∧ (doubled 61).Has ⟨61⟩ ∧
    layout_of (doubled 61) 62 ⟨61⟩ = .ok ⟨0, 8⟩ ∧
    ¬ WellLaid (layout_of (doubled 61) 62) (.Record [(0, ⟨60⟩), (1, ⟨60⟩)]) ⟨0, 8⟩ := by
  refine ⟨doubled_good 61, by decide, layout_of_doubled (by decide) (by decide), ?_⟩
  intro hw
  have hpart : layout_of (doubled 61) 62 ⟨60⟩ = .ok ⟨UInt64.ofNat (8 * 2 ^ 60), 8⟩ :=
    layout_of_doubled (by decide) (by decide)
  obtain ⟨ls, hls, hplaced⟩ := hw.record _ rfl
  rw [List.mapM_cons, List.mapM_cons, List.mapM_nil, hpart] at hls
  cases hls
  obtain ⟨-, -, hrest⟩ := hplaced
  exact absurd (le_of_placed hrest) (by decide)

end paideia_as_types
