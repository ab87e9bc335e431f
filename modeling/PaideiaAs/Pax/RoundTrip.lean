-- The two sections of variable length, written and read back. The writers
-- narrow a length, a row variable and a function id to the width of their
-- field; these results say when nothing is lost by it.
import PaideiaAs.Pax.Effects
import PaideiaAs.Pax.OptPasses

namespace paideia_as_emitter_pax

open Buffer
open OptPassesSection (from_bytes from_bytes_ends to_bytes to_bytes_narrow_all_iff)

/-- The decoding loop of a section ends on `bs` with `r`: it stays inside the
buffer, and takes no more turns than there are bytes. -/
def Reads {σ : Type} (from_bytes : Nat → List UInt8 → Outcome (Option σ)) (bs : List UInt8)
    (r : Option σ) : Prop :=
  ∀ fuel, bs.length < fuel → from_bytes fuel bs = .ok r

theorem effects_reads_iff (s : EffectsSection) :
    Reads EffectsSection.from_bytes s.to_bytes (some s) ↔ ∀ e ∈ s.entries, e.Storable := by
  constructor
  · intro h
    have hfuel := Nat.lt_succ_self s.to_bytes.length
    exact (s.from_bytes_to_bytes_iff hfuel).mp (h _ hfuel)
  · exact fun h fuel hfuel => (s.from_bytes_to_bytes_iff hfuel).mpr h

theorem opt_passes_reads_iff (s : OptPassesSection) :
    Reads from_bytes s.to_bytes (some s) ↔
      ∀ r ∈ s.records, (as_bytes r.pass_name).length < 2 ^ 32 := by
  constructor
  · intro h
    have hfuel := Nat.lt_succ_self s.to_bytes.length
    exact (s.from_bytes_to_bytes_iff hfuel).mp (h _ hfuel)
  · exact fun h fuel hfuel => (s.from_bytes_to_bytes_iff hfuel).mpr h

/-- The byte strings that the reader of the optimisation records accepts are
the sequences of records of the file. -/
theorem opt_passes_accepts_iff (bs : List UInt8) (s : OptPassesSection) :
    Reads from_bytes bs (some s) ↔
      ∃ rs : List StoredRecord, s = ⟨rs.map StoredRecord.narrow⟩ ∧
        bs = rs.flatMap StoredRecord.bytes := by
  constructor
  · exact fun h => OptPassesSection.stored_of_from_bytes (h _ (Nat.lt_succ_self _))
  · rintro ⟨rs, rfl, rfl⟩ fuel hfuel
    exact OptPassesSection.from_bytes_stored rs hfuel

/-- Both sections, in both directions, and on every byte string. -/
theorem variable_sections_round_trip_iff (e : EffectsSection) (o : OptPassesSection)
    (bs : List UInt8) :
    (Reads EffectsSection.from_bytes e.to_bytes (some e) ↔
      ∀ x ∈ e.entries, x.row_var_id ≠ some 0 ∧ x.fixed_effects.length < 2 ^ 32) ∧
    (Reads from_bytes o.to_bytes (some o) ↔
      ∀ r ∈ o.records, (as_bytes r.pass_name).length < 2 ^ 32) ∧
    (∀ s, Reads EffectsSection.from_bytes bs (some s) → s.to_bytes = bs) ∧
    (∀ s, Reads from_bytes bs (some s) →
      ∃ rs : List StoredRecord, bs = rs.flatMap StoredRecord.bytes ∧
        (s.to_bytes = bs ↔ ∀ r ∈ rs, r.function_id.toNat < 2 ^ 32)) ∧
    (∀ rs : List StoredRecord, bs = rs.flatMap StoredRecord.bytes →
      ∃ s, Reads from_bytes bs (some s)) ∧
    (∃ r, Reads EffectsSection.from_bytes bs r) ∧
    ∃ r, Reads from_bytes bs r := by
  refine ⟨effects_reads_iff e, opt_passes_reads_iff o, ?_, ?_, ?_,
    EffectsSection.from_bytes_ends bs, from_bytes_ends bs⟩
  · intro s h
    exact EffectsSection.to_bytes_of_from_bytes (h _ (Nat.lt_succ_self _))
  · intro s h
    obtain ⟨rs, rfl, rfl⟩ := (opt_passes_accepts_iff bs s).mp h
    exact ⟨rs, rfl, to_bytes_narrow_all_iff rs⟩
  · intro rs hrs
    exact ⟨_, (opt_passes_accepts_iff _ _).mpr ⟨rs, rfl, hrs⟩⟩

/-- A record of the pass `dce` whose function field is `2^32 + 1`. -/
def wideRecord : StoredRecord where
  pass_name := "dce"
  fits := by decide
  function_id := 0x100000001
  low_nonzero := by decide
  rewrite_count := 4

/-- An open row whose variable has the id 0 comes back as a closed row, and a
function field past 32 bits is accepted and written back as another one. -/
theorem open_row_and_wide_field_lost :
    ¬ (∀ s : EffectsSection, Reads EffectsSection.from_bytes s.to_bytes (some s)) ∧
    Reads EffectsSection.from_bytes (EffectsSection.to_bytes ⟨[⟨7, [3], some 0⟩]⟩)
      (some ⟨[⟨7, [3], none⟩]⟩) ∧
    ¬ (∀ (bs : List UInt8) (s : OptPassesSection),
      Reads from_bytes bs (some s) → s.to_bytes = bs) ∧
    Reads from_bytes wideRecord.bytes (some ⟨[wideRecord.narrow]⟩) := by
  have hwide : Reads from_bytes wideRecord.bytes (some ⟨[wideRecord.narrow]⟩) :=
    (opt_passes_accepts_iff _ _).mpr ⟨[wideRecord], rfl, by simp⟩
  refine ⟨?_, ?_, ?_, hwide⟩
  · intro h
    have hstored := (effects_reads_iff ⟨[⟨7, [3], some 0⟩]⟩).mp (h _)
    exact (hstored ⟨7, [3], some 0⟩ (.head _)).1 rfl
  · exact (effects_reads_iff ⟨[⟨7, [3], none⟩]⟩).mpr (by simp [EffectRowEntry.Storable])
  · intro h
    have hback : to_bytes ⟨[wideRecord].map StoredRecord.narrow⟩ =
        [wideRecord].flatMap StoredRecord.bytes := by simpa using h _ _ hwide
    have hnarrow := (to_bytes_narrow_all_iff [wideRecord]).mp hback wideRecord
      (.head _)
    exact absurd hnarrow (by decide)

end paideia_as_emitter_pax
