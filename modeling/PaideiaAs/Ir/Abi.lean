-- Aggregate returns (`abi.rs`): the classes of the eightbytes of a record, and where
-- the System V and the MS convention place a returned record.
import PaideiaAs.Encoder.Instruction
import Mathlib.Algebra.Ring.Nat

namespace paideia_as_ir.abi

open paideia_as_runtime
open UInt64 (toNat_add toNat_div)

/-! ## Registers -/

def RAX : RegId := ⟨0⟩
def RCX : RegId := ⟨1⟩
def RDX : RegId := ⟨2⟩
def RSP : RegId := ⟨4⟩
def RDI : RegId := ⟨7⟩
def R10 : RegId := ⟨10⟩
def XMM0 : RegId := ⟨53⟩
def XMM1 : RegId := ⟨54⟩

structure FieldLayout where
  offset : UInt64
  size : UInt8
  is_float : Bool

structure RecordLayout where
  size : UInt64
  align : UInt8
  fields : List FieldLayout

/-! ## System V -/

inductive AggregateClass where
  | Nothing
  | Integer
  | SSE
  | ComplexX87
  | Memory
  deriving DecidableEq

def merge_classes (a b : AggregateClass) : AggregateClass :=
  if a = b then a
  else match a, b with
    | .Nothing, x => x
    | x, .Nothing => x
    | .Memory, _ => .Memory
    | _, .Memory => .Memory
    | .Integer, _ => .Integer
    | _, .Integer => .Integer
    | _, _ => .Memory

def field_class (field : FieldLayout) : AggregateClass :=
  if field.is_float then .SSE else .Integer

/-- The classes of the eightbytes after the fields, and `none` where a field lies
across two eightbytes or outside the record. -/
def merge_fields (eightbyte_count : Nat) (classes : List AggregateClass) :
    List FieldLayout → Option (List AggregateClass)
  | [] => some classes
  | field :: fields =>
    if field.size = 0 then merge_fields eightbyte_count classes fields
    else
      let lo := (field.offset / 8).toNat
      let hi := ((field.offset + field.size.toUInt64 - 1) / 8).toNat
      if lo ≥ eightbyte_count ∨ hi ≥ eightbyte_count then none
      else if lo ≠ hi then none
      else
        let merged := merge_classes (classes.getD lo .Nothing) (field_class field)
        merge_fields eightbyte_count (classes.set lo merged) fields

def classify_sysv_aggregate (layout : RecordLayout) : List AggregateClass :=
  if layout.size > 16 then [.Memory]
  else if layout.size = 0 then []
  else
    let eightbyte_count := ((layout.size + 7) / 8).toNat
    match merge_fields eightbyte_count (List.replicate eightbyte_count .Nothing) layout.fields with
    | none => [.Memory]
    | some classes =>
      if classes.contains .Memory then [.Memory] else classes.filter (· ≠ .Nothing)

inductive SysvReturnPlacement where
  | None
  | IntSingle
  | SseSingle
  | IntPair
  | IntSse
  | SseInt
  | SsePair
  | Memory
  deriving DecidableEq

def sysv_return_placement : List AggregateClass → SysvReturnPlacement
  | [] => .None
  | [.Memory] => .Memory
  | [.Integer] => .IntSingle
  | [.SSE] => .SseSingle
  | [.Integer, .Integer] => .IntPair
  | [.Integer, .SSE] => .IntSse
  | [.SSE, .Integer] => .SseInt
  | [.SSE, .SSE] => .SsePair
  | _ => .Memory

def sysv_return_placement_from_layout (layout : RecordLayout) : SysvReturnPlacement :=
  if layout.size = 0 then .None else sysv_return_placement (classify_sysv_aggregate layout)

/-! ## MS -/

inductive MsRegClass where
  | Int
  | Xmm
  deriving DecidableEq

inductive MsAggregateClass where
  | Register (reg : MsRegClass)
  | Memory
  deriving DecidableEq

def single_float (layout : RecordLayout) : Bool :=
  match layout.fields with
  | [field] =>
    field.is_float && (layout.size == 4 || layout.size == 8)
      && field.size.toUInt64 == layout.size && field.offset == 0
  | _ => false

def classify_ms_aggregate (layout : RecordLayout) : MsAggregateClass :=
  if single_float layout then .Register .Xmm
  else if layout.size = 1 ∨ layout.size = 2 ∨ layout.size = 4 ∨ layout.size = 8 then .Register .Int
  else .Memory

inductive MsReturnPlacement where
  | None
  | IntSingle
  | XmmSingle
  | Memory
  deriving DecidableEq

def ms_return_placement : MsAggregateClass → MsReturnPlacement
  | .Register .Int => .IntSingle
  | .Register .Xmm => .XmmSingle
  | .Memory => .Memory

def ms_return_placement_from_layout (layout : RecordLayout) : MsReturnPlacement :=
  if layout.size = 0 then .None else ms_return_placement (classify_ms_aggregate layout)

/-! ## Natural alignment -/

/-- Every field lies in the record, at a multiple of its size. -/
structure NaturallyAligned (layout : RecordLayout) : Prop where
  sizes : ∀ f ∈ layout.fields, f.size = 1 ∨ f.size = 2 ∨ f.size = 4 ∨ f.size = 8
  aligned : ∀ f ∈ layout.fields, f.size.toNat ∣ f.offset.toNat
  inside : ∀ f ∈ layout.fields, f.offset.toNat + f.size.toNat ≤ layout.size.toNat

/-- A field begins in each eightbyte of a record that may go in registers. -/
def EightbytesUsed (layout : RecordLayout) : Prop :=
  layout.size.toNat ≤ 16 →
    ∀ k, 8 * k < layout.size.toNat → ∃ f ∈ layout.fields, f.offset.toNat / 8 = k

variable {layout : RecordLayout}

/-- A field does not cross the end of its eightbyte. -/
theorem NaturallyAligned.eightbyte (h : NaturallyAligned layout) (hsize : layout.size.toNat ≤ 16)
    {f : FieldLayout} (hf : f ∈ layout.fields) :
    f.size ≠ 0 ∧ (f.offset / 8).toNat = f.offset.toNat / 8 ∧
      ((f.offset + f.size.toUInt64 - 1) / 8).toNat = f.offset.toNat / 8 ∧
      f.offset.toNat / 8 < (layout.size.toNat + 7) / 8 := by
  have hin := h.inside f hf
  obtain ⟨q, hq⟩ := h.aligned f hf
  have hone : (1 : UInt64) ≤ f.offset + f.size.toUInt64 := by
    rw [UInt64.le_iff_toNat_le, toNat_add]
    rcases h.sizes f hf with hs | hs | hs | hs <;> rw [hs] at hin ⊢ <;> simp at hin ⊢ <;> omega
  have hlast : (f.offset + f.size.toUInt64 - 1).toNat = f.offset.toNat + f.size.toNat - 1 := by
    rw [UInt64.toNat_sub_of_le _ _ hone, toNat_add, UInt8.toNat_toUInt64]
    rw [Nat.mod_eq_of_lt (by omega)]
    rfl
  refine ⟨?_, toNat_div .., ?_, ?_⟩
  · rcases h.sizes f hf with hs | hs | hs | hs <;> rw [hs] <;> decide
  · rw [toNat_div, hlast]
    rcases h.sizes f hf with hs | hs | hs | hs <;> rw [hs] at hq ⊢ <;> simp at hq ⊢ <;> omega
  · rcases h.sizes f hf with hs | hs | hs | hs <;> rw [hs] at hin <;> simp at hin <;> omega

/-- What an eightbyte of fields in registers may be. -/
def Registers (c : AggregateClass) : Prop := c = .Integer ∨ c = .SSE

theorem merge_registers {c : AggregateClass} (f : FieldLayout) (h : c = .Nothing ∨ Registers c) :
    Registers (merge_classes c (field_class f)) := by
  unfold field_class Registers
  rcases h with rfl | rfl | rfl
  all_goals cases f.is_float <;> simp [merge_classes]

theorem merge_fields_registers {count : Nat} {fields : List FieldLayout} :
    ∀ {classes : List AggregateClass}, classes.length = count →
      (∀ c ∈ classes, c = .Nothing ∨ Registers c) →
      (∀ f ∈ fields, f.size ≠ 0 ∧ (f.offset / 8).toNat = f.offset.toNat / 8 ∧
        ((f.offset + f.size.toUInt64 - 1) / 8).toNat = f.offset.toNat / 8 ∧
        f.offset.toNat / 8 < count) →
      ∃ merged, merge_fields count classes fields = some merged ∧ merged.length = count ∧
        (∀ c ∈ merged, c = .Nothing ∨ Registers c) ∧
        ∀ k, (∃ c, classes[k]? = some c ∧ Registers c) ∨ (∃ f ∈ fields, f.offset.toNat / 8 = k) →
          ∃ c, merged[k]? = some c ∧ Registers c := by
  induction fields with
  | nil =>
    intro classes hlen hall _
    refine ⟨classes, rfl, hlen, hall, ?_⟩
    rintro k (h | ⟨f, hf, -⟩)
    · exact h
    · cases hf
  | cons f fields ih =>
    intro classes hlen hall hfields
    obtain ⟨hne, hlo, hhi, hlt⟩ := hfields f (.head _)
    have hgetD : classes.getD (f.offset.toNat / 8) .Nothing = .Nothing ∨
        Registers (classes.getD (f.offset.toNat / 8) .Nothing) := by
      rw [List.getD_eq_getElem?_getD, List.getElem?_eq_getElem (hlen ▸ hlt)]
      exact hall _ (List.getElem_mem _)
    have hmerged := merge_registers f hgetD
    obtain ⟨merged, heq, hlen', hall', hused⟩ := @ih
      (classes.set (f.offset.toNat / 8) (merge_classes (classes.getD (f.offset.toNat / 8) .Nothing)
        (field_class f)))
      (by rw [List.length_set, hlen])
      (fun c hc => (List.mem_or_eq_of_mem_set hc).elim (hall c) fun h => .inr (h ▸ hmerged))
      (fun f hf => hfields f (.tail _ hf))
    refine ⟨merged, ?_, hlen', hall', ?_⟩
    · rw [merge_fields, if_neg hne]
      dsimp only
      rw [hlo, hhi, if_neg (by omega), if_neg (by simp)]
      exact heq
    · intro k hk
      apply hused k
      by_cases hat : k = f.offset.toNat / 8
      · refine .inl ⟨_, ?_, hmerged⟩
        rw [hat, List.getElem?_set_self (hlen ▸ hlt)]
      · rcases hk with ⟨c, hc, hreg⟩ | ⟨f', hf', hk⟩
        · refine .inl ⟨c, ?_, hreg⟩
          rw [List.getElem?_set_ne (Ne.symm hat)]
          exact hc
        · rcases List.mem_cons.mp hf' with rfl | hf'
          · exact absurd hk.symm hat
          · exact .inr ⟨f', hf', hk⟩

/-- A record of at most two eightbytes, each with a field, is returned in as many
registers. -/
theorem classify_registers (hnat : NaturallyAligned layout) (hused : EightbytesUsed layout)
    (hpos : layout.size ≠ 0) (hsize : layout.size.toNat ≤ 16) :
    (∀ c ∈ classify_sysv_aggregate layout, Registers c) ∧
      (classify_sysv_aggregate layout).length = (layout.size.toNat + 7) / 8 := by
  have hcount : ((layout.size + 7) / 8).toNat = (layout.size.toNat + 7) / 8 := by
    rw [toNat_div, toNat_add]
    exact congrArg (· / 8) (Nat.mod_eq_of_lt (show layout.size.toNat + 7 < 2 ^ 64 by omega))
  have hnot : ¬ layout.size > 16 := by
    rw [gt_iff_lt, UInt64.lt_iff_toNat_lt]
    exact Nat.not_lt.mpr hsize
  obtain ⟨merged, hmerged, hlen, hall, hreg⟩ := merge_fields_registers
    (show (List.replicate ((layout.size.toNat + 7) / 8) AggregateClass.Nothing).length = _ from
      List.length_replicate)
    (fun c hc => .inl (List.eq_of_mem_replicate hc)) fun f hf => hnat.eightbyte hsize hf
  have hregisters : ∀ c ∈ merged, Registers c := by
    intro c hc
    obtain ⟨k, hk, rfl⟩ := List.getElem_of_mem hc
    obtain ⟨c, hc, hr⟩ := hreg k (.inr (hused hsize k (by omega)))
    rw [List.getElem?_eq_getElem hk] at hc
    rw [Option.some.inj hc]
    exact hr
  have hclassify : classify_sysv_aggregate layout = merged := by
    unfold classify_sysv_aggregate
    rw [if_neg hnot, if_neg hpos]
    dsimp only
    rw [hcount, hmerged]
    dsimp only
    rw [if_neg, List.filter_eq_self.mpr]
    · intro c hc
      rcases hregisters c hc with rfl | rfl <;> rfl
    · rw [List.contains_iff_mem]
      intro hmem
      rcases hregisters _ hmem with h | h <;> cases h
  rw [hclassify]
  exact ⟨hregisters, hlen⟩

end paideia_as_ir.abi
