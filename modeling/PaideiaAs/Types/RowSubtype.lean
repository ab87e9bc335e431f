-- Record types with a row variable for the fields that are not named, and the
-- order on them (`row_subtype.rs`).
import PaideiaAs.Lib.Assoc
import PaideiaAs.Lib.Sorting
import PaideiaAs.Types.Interner

namespace paideia_as_types.row_subtype

open Prod (fst snd)

/-! ## Records -/

/-- The id of a field name: a `NonZeroU32`. -/
structure FieldId where
  num : Nat
  pos : 0 < num

/-- The variable of a record's tail: a `NonZeroU32`. -/
@[ext] structure RecordRowVar where
  num : Nat
  pos : 0 < num

instance : DecidableEq RecordRowVar := fun _ _ => decidable_of_iff _ RecordRowVar.ext_iff.symm

theorem FieldId.num_injective : Function.Injective FieldId.num := by
  rintro ⟨a, _⟩ ⟨b, _⟩ h
  cases h
  rfl

instance : LinearOrder FieldId := LinearOrder.lift' FieldId.num FieldId.num_injective

/-- The named fields, in the order of their ids and each id once, and the tail.
The record is closed when it has no tail. -/
@[ext] structure RowRecord where
  fields : List (FieldId × TypeId)
  tail : Option RecordRowVar
  sorted : fields.Pairwise fun a b => a.1 < b.1

namespace RowRecord

/-- Of two fields with one id, the first of the list is kept. -/
def new (fields : List (FieldId × TypeId)) (tail : Option RecordRowVar) : RowRecord :=
  ⟨Sorting.firsts fst fields, tail, Sorting.pairwise_firsts fst fields⟩

/-- By binary search over the ids. -/
def field_type (t : RowRecord) (id : FieldId) : Option TypeId :=
  match Sorting.search (t.fields.map fst) id 0 t.fields.length with
  | none => none
  | some i => t.fields[i]?.map snd

end RowRecord

/-- The merge. `left` is what the cursor has not passed: it stops in front of a field
that was found, and never goes back. -/
def sub_fields (left : List (FieldId × TypeId)) : List (FieldId × TypeId) → Bool
  | [] => true
  | (rid, rty) :: right =>
    match left.dropWhile fun field => field.1 < rid with
    | [] => false
    | (lid, lty) :: left =>
      if lid ≠ rid then false
      else if lty ≠ rty then false
      else sub_fields ((lid, lty) :: left) right

def sub_record (t1 t2 : RowRecord) : Bool :=
  sub_fields t1.fields t2.fields &&
    match t1.tail, t2.tail with
    | none, none => true
    | some a, some b => a == b
    | _, _ => false

/-! ## What a lookup finds -/

variable {left right : List (FieldId × TypeId)} {t t1 t2 t3 : RowRecord}

theorem nodup_keys (h : left.Pairwise fun a b => a.1 < b.1) : (Assoc.keys left).Nodup := by
  unfold Assoc.keys
  rw [List.nodup_iff_pairwise_ne, List.pairwise_map]
  exact h.imp fun hab => ne_of_lt hab

/-- The binary search finds what a search from the front finds. -/
theorem field_type_eq_lookup (t : RowRecord) (id : FieldId) :
    t.field_type id = t.fields.lookup id := by
  have hkeys : (t.fields.map fst).Pairwise (· < ·) := List.pairwise_map.mpr t.sorted
  unfold RowRecord.field_type
  split
  · rename_i hnone
    rw [← t.fields.length_map fst, Sorting.search_eq_none_iff hkeys] at hnone
    exact (Assoc.lookup_none.mpr hnone).symm
  · rename_i i hi
    have hid := Sorting.getElem?_of_search hi
    rw [List.getElem?_map] at hid
    obtain ⟨field, hfield, rfl⟩ := Option.map_eq_some_iff.mp hid
    rw [hfield]
    exact ((Assoc.lookup_iff_mem (nodup_keys t.sorted)).mpr (List.mem_of_getElem? hfield)).symm

theorem field_type_eq_some {id : FieldId} {ty : TypeId} :
    t.field_type id = some ty ↔ (id, ty) ∈ t.fields := by
  rw [field_type_eq_lookup]
  exact Assoc.lookup_iff_mem (nodup_keys t.sorted)

/-- Of the fields with one id, the first that was given is found. -/
theorem field_type_new (fields : List (FieldId × TypeId)) (tail : Option RecordRowVar)
    (id : FieldId) : (RowRecord.new fields tail).field_type id = fields.lookup id := by
  rw [field_type_eq_lookup]
  exact Sorting.lookup_firsts fields id

/-! ## The merge finds every field -/

theorem mem_dropWhile_of_le {rid : FieldId} {field : FieldId × TypeId} (hle : rid ≤ field.1) :
    field ∈ (left.dropWhile fun f => f.1 < rid) ↔ field ∈ left := by
  induction left with
  | nil => rfl
  | cons f left ih =>
    rw [List.dropWhile_cons]
    split
    · rename_i hlt
      rw [ih, List.mem_cons]
      constructor
      · exact Or.inr
      · rintro (rfl | h)
        · exact absurd (of_decide_eq_true hlt) (not_lt_of_ge hle)
        · exact h
    · rfl

/-- A field is on the left only if the cursor stops in front of it. -/
theorem mem_iff_at_cursor (hleft : left.Pairwise fun a b => a.1 < b.1) (rid : FieldId)
    (rty : TypeId) :
    (rid, rty) ∈ left ↔ (left.dropWhile fun f => f.1 < rid).head? = some (rid, rty) := by
  have hdrop : (left.dropWhile fun f => f.1 < rid).Pairwise fun a b => a.1 < b.1 :=
    hleft.sublist (List.dropWhile_sublist _)
  have hstop := List.head?_dropWhile_not (fun f : FieldId × TypeId => f.1 < rid) left
  rw [← mem_dropWhile_of_le (le_refl rid)]
  generalize (left.dropWhile fun f => f.1 < rid) = ahead at *
  cases ahead with
  | nil => simp
  | cons field ahead =>
    rw [List.head?_cons, Option.some_inj, List.mem_cons]
    constructor
    · rintro (h | h)
      · exact h.symm
      · have hlt : field.1 < rid := (List.pairwise_cons.mp hdrop).1 _ h
        simp [hlt] at hstop
    · exact fun h => .inl h.symm

/-- What the cursor has passed is below every field that is still to be found: each
of them is in front of the cursor or nowhere. -/
theorem sub_fields_iff (hleft : left.Pairwise fun a b => a.1 < b.1)
    (hright : right.Pairwise fun a b => a.1 < b.1) :
    sub_fields left right = true ↔ ∀ field ∈ right, field ∈ left := by
  induction right generalizing left with
  | nil => simp [sub_fields]
  | cons field right ih =>
    obtain ⟨rid, rty⟩ := field
    obtain ⟨habove, hright⟩ := List.pairwise_cons.mp hright
    have hahead : ∀ f ∈ right, (f ∈ left.dropWhile (fun f => f.1 < rid) ↔ f ∈ left) :=
      fun f hf => mem_dropWhile_of_le (le_of_lt (habove f hf))
    have hdrop : (left.dropWhile fun f => f.1 < rid).Pairwise fun a b => a.1 < b.1 :=
      hleft.sublist (List.dropWhile_sublist _)
    rw [List.forall_mem_cons, mem_iff_at_cursor hleft]
    unfold sub_fields
    split
    · rename_i hnil
      simp [hnil]
    · rename_i lid lty ahead hcursor
      rw [hcursor] at hahead hdrop ⊢
      rw [List.head?_cons, Option.some_inj, Prod.mk.injEq]
      split
      · rename_i hid
        simp [hid]
      · rename_i hid
        split
        · rename_i hty
          simp [hty]
        · rename_i hty
          rw [ih hdrop hright]
          simp only [not_not.mp hid, not_not.mp hty, true_and] at hahead ⊢
          exact forall₂_congr hahead

theorem sub_record_iff : sub_record t1 t2 = true ↔
    t1.tail = t2.tail ∧ ∀ field ∈ t2.fields, field ∈ t1.fields := by
  unfold sub_record
  rw [Bool.and_eq_true, sub_fields_iff t1.sorted t2.sorted, and_comm]
  apply and_congr_left
  intro _
  cases t1.tail <;> cases t2.tail <;> simp

/-! ## A partial order -/

theorem sub_record_refl (t : RowRecord) : sub_record t t = true :=
  sub_record_iff.mpr ⟨rfl, fun _ h => h⟩

theorem sub_record_trans (h12 : sub_record t1 t2 = true) (h23 : sub_record t2 t3 = true) :
    sub_record t1 t3 = true := by
  obtain ⟨ht12, hf12⟩ := sub_record_iff.mp h12
  obtain ⟨ht23, hf23⟩ := sub_record_iff.mp h23
  exact sub_record_iff.mpr ⟨ht12.trans ht23, fun field h => hf12 field (hf23 field h)⟩

/-- Two sorted lists with the same fields are the same list. -/
theorem eq_of_fields (htail : t1.tail = t2.tail)
    (h : ∀ field, field ∈ t1.fields ↔ field ∈ t2.fields) : t1 = t2 := by
  have hasymm : Std.Asymm fun a b : FieldId × TypeId => a.1 < b.1 :=
    ⟨fun _ _ hab hba => lt_asymm hab hba⟩
  apply RowRecord.ext
  · exact t1.sorted.eq_of_mem_iff t2.sorted fun {field} => h field
  · exact htail

theorem sub_record_antisymm (h12 : sub_record t1 t2 = true) (h21 : sub_record t2 t1 = true) :
    t1 = t2 := by
  obtain ⟨htail, hf12⟩ := sub_record_iff.mp h12
  obtain ⟨_, hf21⟩ := sub_record_iff.mp h21
  exact eq_of_fields htail fun field => ⟨hf21 field, hf12 field⟩

/-- With one field for each id, the order in which the fields are given does not
matter. -/
theorem new_perm {fields fields' : List (FieldId × TypeId)} (hnodup : (Assoc.keys fields).Nodup)
    (hperm : fields'.Perm fields) (tail : Option RecordRowVar) :
    RowRecord.new fields' tail = RowRecord.new fields tail := by
  have htail : (RowRecord.new fields' tail).tail = (RowRecord.new fields tail).tail := rfl
  apply eq_of_fields htail
  rintro ⟨id, ty⟩
  rw [← field_type_eq_some, ← field_type_eq_some, field_type_new, field_type_new,
    Assoc.lookup_perm hnodup hperm]

/-- The order is what it is for, and a partial order. -/
theorem sub_record_is_partial_order (f1 f2 f3 : List (FieldId × TypeId))
    (r1 r2 r3 : Option RecordRowVar) :
    (sub_record (.new f1 r1) (.new f2 r2) = true ↔
      r1 = r2 ∧ ∀ field ∈ (RowRecord.new f2 r2).fields,
        (RowRecord.new f1 r1).field_type field.1 = some field.2) ∧
    sub_record (.new f1 r1) (.new f1 r1) = true ∧
    (sub_record (.new f1 r1) (.new f2 r2) = true → sub_record (.new f2 r2) (.new f3 r3) = true →
      sub_record (.new f1 r1) (.new f3 r3) = true) ∧
    (sub_record (.new f1 r1) (.new f2 r2) = true → sub_record (.new f2 r2) (.new f1 r1) = true →
      RowRecord.new f1 r1 = RowRecord.new f2 r2) ∧
    ∀ f1', (Assoc.keys f1).Nodup → f1'.Perm f1 → RowRecord.new f1' r1 = RowRecord.new f1 r1 := by
  refine ⟨?_, sub_record_refl _, sub_record_trans, sub_record_antisymm, ?_⟩
  · rw [sub_record_iff]
    apply and_congr_right
    intro _
    apply forall₂_congr
    intro field _
    exact field_type_eq_some.symm
  · intro f1' hnodup hperm
    exact new_perm hnodup hperm r1

end paideia_as_types.row_subtype
