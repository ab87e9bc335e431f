-- The relocate phase of the linker: a copy of the contents of every section,
-- with the absolute relocations of the file written into its first section.
import PaideiaAs.Linker.Definitions

namespace paideia_as_linker

open Buffer Bytes paideia_as_emitter_pax
open List (forall_mem_cons length map_cons)
open Outcome (bind_eq_ok expect ok_bind)

/-! ## The phase -/

structure RelocatedPax where
  index : Nat
  section_contents : List (List UInt8)

structure RelocatedLink where
  pax_files : List RelocatedPax

def relocValue (r : RelocEntry) (resolved_pax : ResolvedPax) : UInt64 :=
  let symbol_id := (resolved_pax.symbol_mapping r.symbol_index.toNat).getD r.symbol_index
  (symbol_id.toInt64 + r.addend).toUInt64

/-- One relocation. An absolute one that does not fit the first section is
skipped, and so is every other kind. -/
def apply_reloc (sections : List (List UInt8)) (r : RelocEntry) (resolved_pax : ResolvedPax) :
    Outcome (List (List UInt8)) :=
  match r.kind with
  | .Abs64 =>
    match sections with
    | [] => .ok []
    | first :: others => do
      let offset := r.offset.toNat
      let stop ← usizeAdd offset 8
      if stop > first.length then .ok (first :: others)
      else
        let first ← copyInto first offset (u64 (relocValue r resolved_pax))
        .ok (first :: others)
  | .Pc32 | .GotPc32 | .PltPc32 | .CapBind => .ok sections

def apply_relocs (resolved_pax : ResolvedPax) : List RelocEntry → List (List UInt8) →
    Outcome (List (List UInt8))
  | [], sections => .ok sections
  | r :: rs, sections => do
    let sections ← apply_reloc sections r resolved_pax
    apply_relocs resolved_pax rs sections

def copy_contents (pax : ParsedPax) : List Section → Outcome (List (List UInt8))
  | [] => .ok []
  | s :: ss => do
    let content ← pax.section_content s
    let contents ← copy_contents pax ss
    .ok (content :: contents)

def relocs (pax : ParsedPax) : Outcome (Option Relocs) := do
  match ← find_section_content_by_type pax .Relocs with
  | none => .ok none
  | some reloc_bytes => Relocs.from_bytes reloc_bytes

/-- One input. -/
def relocate_pax (pax : ParsedPax) (resolved_pax : ResolvedPax) : Outcome (List (List UInt8)) := do
  let section_contents ← copy_contents pax pax.section_table.sections
  match ← relocs pax with
  | none => .ok section_contents
  | some rs => apply_relocs resolved_pax rs.entries section_contents

def relocate_from (resolved : ResolvedLink) : Nat → List ParsedPax → Outcome (List RelocatedPax)
  | _, [] => .ok []
  | i, pax :: inputs => do
    let resolved_pax ← expect (resolved.pax_files[i]?)
    let section_contents ← relocate_pax pax resolved_pax
    let rest ← relocate_from resolved (i + 1) inputs
    .ok (⟨i, section_contents⟩ :: rest)

def relocate_inputs (inputs : List ParsedPax) (resolved : ResolvedLink) :
    Outcome RelocatedLink := do
  let pax_files ← relocate_from resolved 0 inputs
  .ok { pax_files }

/-! ## When the phase goes through -/

/-- The relocations of an input: none when it has no table that can be read. -/
def relocEntries (pax : ParsedPax) : List RelocEntry :=
  match relocs pax with
  | .ok (some rs) => rs.entries
  | _ => []

/-- The sections of an input lie in its file, and the end of no absolute
relocation is past `2^64`. -/
structure ParsedPax.Relocatable (pax : ParsedPax) : Prop where
  sections : ∀ s ∈ pax.section_table.sections, pax.Inside s
  offsets : ∀ r ∈ relocEntries pax, r.kind = .Abs64 → r.offset.toNat + 8 < 2 ^ 64

variable {pax : ParsedPax} {rp : ResolvedPax} {resolved : ResolvedLink} {ps : List ParsedPax}

theorem copy_contents_eq {ss : List Section} (h : ∀ s ∈ ss, pax.Inside s) :
    copy_contents pax ss = .ok (ss.map pax.content) := by
  induction ss with
  | nil => rfl
  | cons s ss ih =>
    rw [copy_contents, section_content_of_inside (h s List.mem_cons_self), ok_bind,
      ih (fun t ht => h t (.tail _ ht))]
    rfl

theorem inside_of_copy_contents {ss : List Section} {cs : List (List UInt8)}
    (h : copy_contents pax ss = .ok cs) : ∀ s ∈ ss, pax.Inside s := by
  induction ss generalizing cs with
  | nil => simp
  | cons s ss ih =>
    obtain ⟨c, hc, h⟩ := bind_eq_ok.mp h
    obtain ⟨cs', hcs', -⟩ := bind_eq_ok.mp h
    exact forall_mem_cons.mpr ⟨inside_of_section_content hc, ih hcs'⟩

/-- A relocation changes no length, and it goes through exactly when its end
is a `usize`. -/
theorem apply_reloc_ends {r : RelocEntry} (rp : ResolvedPax) (sections : List (List UInt8))
    (h : r.kind = .Abs64 → r.offset.toNat + 8 < 2 ^ 64) :
    ∃ out, apply_reloc sections r rp = .ok out ∧ out.map length = sections.map length := by
  unfold apply_reloc
  split
  · next hkind =>
    rcases sections with _ | ⟨first, others⟩
    · exact ⟨[], rfl, rfl⟩
    · simp only [usizeAdd]
      rw [if_pos (h hkind), ok_bind]
      split
      · exact ⟨_, rfl, rfl⟩
      · next hfit =>
        have hlen : r.offset.toNat + (u64 (relocValue r rp)).length ≤ first.length := by
          rw [length_u64]
          omega
        rw [copyInto, if_pos hlen, ok_bind]
        exact ⟨_, rfl, by simp [length_patch hlen]⟩
  all_goals exact ⟨_, rfl, rfl⟩

theorem offset_of_apply_reloc {r : RelocEntry} {sections out : List (List UInt8)}
    (hne : sections ≠ []) (h : apply_reloc sections r rp = .ok out) :
    r.kind = .Abs64 → r.offset.toNat + 8 < 2 ^ 64 := by
  intro hkind
  unfold apply_reloc at h
  rw [hkind] at h
  rcases sections with _ | ⟨first, others⟩
  · exact absurd rfl hne
  · obtain ⟨stop, hstop, -⟩ := bind_eq_ok.mp h
    unfold usizeAdd at hstop
    split at hstop
    · next hlt => exact hlt
    · cases hstop

theorem apply_relocs_ends (rp : ResolvedPax) (rs : List RelocEntry) :
    ∀ sections : List (List UInt8),
      (∀ r ∈ rs, r.kind = .Abs64 → r.offset.toNat + 8 < 2 ^ 64) →
      ∃ out, apply_relocs rp rs sections = .ok out ∧
        out.map length = sections.map length := by
  induction rs with
  | nil => exact fun sections _ => ⟨sections, rfl, rfl⟩
  | cons r rs ih =>
    intro sections h
    obtain ⟨hr, hrs⟩ := forall_mem_cons.mp h
    obtain ⟨mid, hmid, hlen⟩ := apply_reloc_ends rp sections hr
    obtain ⟨out, hout, hlen'⟩ := ih mid hrs
    exact ⟨out, by rw [apply_relocs, hmid, ok_bind, hout], hlen'.trans hlen⟩

theorem offsets_of_apply_relocs {rs : List RelocEntry} :
    ∀ {sections out : List (List UInt8)}, sections ≠ [] → apply_relocs rp rs sections = .ok out →
      ∀ r ∈ rs, r.kind = .Abs64 → r.offset.toNat + 8 < 2 ^ 64 := by
  induction rs with
  | nil => simp
  | cons r rs ih =>
    intro sections out hne h
    obtain ⟨mid, hmid, h⟩ := bind_eq_ok.mp h
    have hoffset := offset_of_apply_reloc hne hmid
    obtain ⟨mid', hmid', hlen⟩ := apply_reloc_ends rp sections hoffset
    cases hmid.symm.trans hmid'
    have hne' : mid ≠ [] := by
      rintro rfl
      exact hne (List.map_eq_nil_iff.mp hlen.symm)
    exact forall_mem_cons.mpr ⟨hoffset, ih hne' h⟩

theorem relocs_isOk_iff : (∃ r, relocs pax = .ok r) ↔ pax.Readable .Relocs :=
  table_isOk_iff Relocs.from_bytes_isOk

theorem sections_ne_nil_of_relocs {rs : Relocs}
    (h : relocs pax = .ok (some rs)) : pax.section_table.sections ≠ [] := by
  intro hnil
  obtain ⟨c, hc, h⟩ := bind_eq_ok.mp h
  rw [find_section_content_by_type, ParsedPax.firstOf, hnil] at hc
  cases hc
  cases h

theorem readable_of_sections (h : ∀ s ∈ pax.section_table.sections, pax.Inside s)
    (ty : SectionType) : pax.Readable ty := by
  intro s hs
  exact h s (List.mem_of_find?_eq_some hs)

/-- An input goes through exactly when it is relocatable, and every section
keeps its length. -/
theorem relocate_pax_ends (rp : ResolvedPax) (h : pax.Relocatable) :
    ∃ out, relocate_pax pax rp = .ok out ∧
      out.map length = pax.section_table.sections.map (fun s => (pax.content s).length) := by
  unfold relocate_pax
  rw [copy_contents_eq h.sections, ok_bind]
  obtain ⟨r, hr⟩ := relocs_isOk_iff.mpr (readable_of_sections h.sections .Relocs)
  rw [hr, ok_bind]
  rcases r with _ | rs
  · exact ⟨_, rfl, by simp [Function.comp_def]⟩
  · have hoffsets := h.offsets
    rw [relocEntries, hr] at hoffsets
    obtain ⟨out, hout, hlen⟩ := apply_relocs_ends rp rs.entries
      (pax.section_table.sections.map pax.content) hoffsets
    exact ⟨out, hout, by simpa [Function.comp_def] using hlen⟩

theorem relocatable_of_relocate_pax {out : List (List UInt8)}
    (h : relocate_pax pax rp = .ok out) : pax.Relocatable := by
  obtain ⟨cs, hcs, h⟩ := bind_eq_ok.mp h
  obtain ⟨r, hr, h⟩ := bind_eq_ok.mp h
  have hinside := inside_of_copy_contents hcs
  refine ⟨hinside, ?_⟩
  rw [relocEntries, hr]
  rcases r with _ | rs
  · simp
  · refine offsets_of_apply_relocs ?_ h
    rw [copy_contents_eq hinside] at hcs
    cases hcs
    simpa using sections_ne_nil_of_relocs hr

theorem relocate_from_ends (h : ∀ p ∈ ps, p.Relocatable) :
    ∀ i, i + ps.length ≤ resolved.pax_files.length →
      ∃ out, relocate_from resolved i ps = .ok out := by
  induction ps with
  | nil => exact fun _ _ => ⟨[], rfl⟩
  | cons p ps ih =>
    intro i hi
    rw [List.length_cons] at hi
    obtain ⟨hp, hps⟩ := forall_mem_cons.mp h
    have hlt : i < resolved.pax_files.length := by omega
    obtain ⟨out, hout, -⟩ := relocate_pax_ends resolved.pax_files[i] hp
    obtain ⟨rest, hrest⟩ := ih hps (i + 1) (by omega)
    rw [relocate_from, List.getElem?_eq_getElem hlt, Outcome.expect_some, ok_bind, hout,
      ok_bind, hrest]
    exact ⟨_, rfl⟩

theorem relocatable_of_relocate_from :
    ∀ {i : Nat} {out : List RelocatedPax}, relocate_from resolved i ps = .ok out →
      ∀ p ∈ ps, p.Relocatable := by
  induction ps with
  | nil => simp
  | cons p ps ih =>
    intro i out h
    obtain ⟨rp, -, h⟩ := bind_eq_ok.mp h
    obtain ⟨cs, hcs, h⟩ := bind_eq_ok.mp h
    obtain ⟨rest, hrest, -⟩ := bind_eq_ok.mp h
    exact forall_mem_cons.mpr ⟨relocatable_of_relocate_pax hcs, ih hrest⟩

theorem relocate_inputs_isOk_iff (hlen : ps.length ≤ resolved.pax_files.length) :
    (∃ out, relocate_inputs ps resolved = .ok out) ↔ ∀ p ∈ ps, p.Relocatable := by
  constructor
  · rintro ⟨out, h⟩
    obtain ⟨files, hfiles, -⟩ := bind_eq_ok.mp h
    exact relocatable_of_relocate_from hfiles
  · intro h
    obtain ⟨files, hfiles⟩ : ∃ files, relocate_from resolved 0 ps = .ok files :=
      relocate_from_ends h 0 (by omega)
    exact ⟨⟨files⟩, by rw [relocate_inputs, hfiles]; rfl⟩

theorem relocate_from_lengths :
    ∀ {i : Nat} {out : List RelocatedPax}, relocate_from resolved i ps = .ok out →
      out.map (fun f => f.section_contents.map length) =
        ps.map (fun p => p.section_table.sections.map (fun s => (p.content s).length)) := by
  induction ps with
  | nil =>
    intro i out h
    cases h
    rfl
  | cons p ps ih =>
    intro i out h
    obtain ⟨rp, -, h⟩ := bind_eq_ok.mp h
    obtain ⟨cs, hcs, h⟩ := bind_eq_ok.mp h
    obtain ⟨rest, hrest, h⟩ := bind_eq_ok.mp h
    cases h
    obtain ⟨cs', hcs', hlen⟩ := relocate_pax_ends rp (relocatable_of_relocate_pax hcs)
    cases hcs.symm.trans hcs'
    rw [map_cons, map_cons, ih hrest, hlen]

end paideia_as_linker
