-- When the linker crashes: the exact condition under which the four phases
-- run through on given files, with an error or an image, without a slice
-- outside a buffer and without an offset that overflows.
import PaideiaAs.Linker.Emit

namespace paideia_as_linker

open Buffer paideia_as_emitter_pax
open Outcome (bind_eq_ok ok_bind)

/-! ## The parse phase -/

/-- An input file: its path, and what reading it gives. -/
abbrev InputFile := String × Except String (List UInt8)

/-- The header at the start of a file. -/
def headerOf (bytes : List UInt8) : Option PaxHeader :=
  match PaxHeader.from_bytes bytes with
  | .ok r => r
  | .error _ => none

theorem from_bytes_eq_headerOf (bytes : List UInt8) :
    PaxHeader.from_bytes bytes = .ok (headerOf bytes) := by
  obtain ⟨r, hr⟩ := PaxHeader.from_bytes_isOk bytes
  rw [headerOf, hr]

/-- A file with a supported header and sections has its section table start
inside it. -/
def TableStartsInside (file : Except String (List UInt8)) : Prop :=
  ∀ bytes header, file = .ok bytes → headerOf bytes = some header →
    header.format_version = PAX_FORMAT_VERSION → header.section_count ≠ 0 →
    header.section_table_offset.toNat ≤ bytes.length

/-- The file is accepted, as the input `pax`: a supported header, and a table
of as many descriptors as it says. -/
def Accepts (file : InputFile) (pax : ParsedPax) : Prop :=
  file = (pax.path, .ok pax.bytes) ∧ headerOf pax.bytes = some pax.header ∧
    pax.header.format_version = PAX_FORMAT_VERSION ∧
    if pax.header.section_count = 0 then pax.section_table = SectionTable.new
    else pax.header.section_table_offset.toNat ≤ pax.bytes.length ∧
      SectionTable.from_bytes (pax.bytes.drop pax.header.section_table_offset.toNat)
        pax.header.section_count = .ok (some pax.section_table)

theorem headerOf_short {bytes : List UInt8} (h : bytes.length < PAX_HEADER_SIZE) :
    headerOf bytes = none := by
  rw [headerOf, PaxHeader.from_bytes, if_pos h]

theorem slice_tail {bytes : List UInt8} {n : Nat} (h : n ≤ bytes.length) :
    slice bytes n bytes.length = .ok (bytes.drop n) := by
  rw [slice_eq_ok h le_rfl, List.take_of_length_le (by simp)]

/-- What the parser makes of a table that was read, or not. -/
def tableResult (path : String) (header : PaxHeader) (bytes : List UInt8) :
    Option SectionTable → Except ParseError ParsedPax
  | none => .error .TruncatedSectionTable
  | some table => .ok ⟨path, header, table, bytes⟩

theorem parse_pax_cases (path : String) (bytes : List UInt8) :
    (headerOf bytes = none ∧ ∃ e, parse_pax path (.ok bytes) = .ok (.error e)) ∨
    ∃ header, headerOf bytes = some header ∧
      ((header.format_version ≠ PAX_FORMAT_VERSION ∧
          ∃ e, parse_pax path (.ok bytes) = .ok (.error e)) ∨
        (header.format_version = PAX_FORMAT_VERSION ∧ header.section_count = 0 ∧
          parse_pax path (.ok bytes) = .ok (.ok ⟨path, header, SectionTable.new, bytes⟩)) ∨
        (header.format_version = PAX_FORMAT_VERSION ∧ header.section_count ≠ 0 ∧
          parse_pax path (.ok bytes) = (do
            let tail ← slice bytes header.section_table_offset.toNat bytes.length
            let table ← SectionTable.from_bytes tail header.section_count
            .ok (tableResult path header bytes table)))) := by
  by_cases hshort : bytes.length < PAX_HEADER_SIZE
  · refine .inl ⟨headerOf_short hshort, .TruncatedHeader, ?_⟩
    rw [parse_pax]
    exact if_pos hshort
  rcases hheader : headerOf bytes with _ | header
  · refine .inl ⟨rfl, .NotPax, ?_⟩
    simp [parse_pax, hshort, from_bytes_eq_headerOf, hheader]
  · refine .inr ⟨header, rfl, ?_⟩
    by_cases hversion : header.format_version = PAX_FORMAT_VERSION
    · by_cases hcount : header.section_count = 0
      · refine .inr (.inl ⟨hversion, hcount, ?_⟩)
        simp [parse_pax, hshort, from_bytes_eq_headerOf, hheader, hversion, hcount]
      · refine .inr (.inr ⟨hversion, hcount, ?_⟩)
        simp only [parse_pax, hshort, from_bytes_eq_headerOf, hheader, hversion, hcount,
          ok_bind, if_false, ne_eq, not_true_eq_false]
        congr 1
        funext tail
        congr 1
        funext table
        rcases table with _ | table
        · rfl
        · rfl
    · refine .inl ⟨hversion, .UnsupportedVersion header.format_version, ?_⟩
      simp [parse_pax, hshort, from_bytes_eq_headerOf, hheader, hversion]

theorem parse_pax_isOk_iff {path : String} {file : Except String (List UInt8)} :
    (∃ r, parse_pax path file = .ok r) ↔ TableStartsInside file := by
  rcases file with msg | bytes
  · refine iff_of_true ⟨_, rfl⟩ ?_
    intro bytes header h
    cases h
  rcases parse_pax_cases path bytes with ⟨hnone, e, he⟩ | ⟨header, hheader, hcases⟩
  · refine iff_of_true ⟨_, he⟩ ?_
    intro bytes' header h
    cases h
    rw [hnone]
    rintro ⟨⟩
  have hinside : TableStartsInside (.ok bytes) ↔
      (header.format_version = PAX_FORMAT_VERSION → header.section_count ≠ 0 →
        header.section_table_offset.toNat ≤ bytes.length) := by
    constructor
    · exact fun h => h bytes header rfl hheader
    · intro h bytes' header' heq hheader'
      cases heq
      cases hheader.symm.trans hheader'
      exact h
  rw [hinside]
  rcases hcases with ⟨hversion, e, he⟩ | ⟨-, hcount, hok⟩ | ⟨hversion, hcount, hparse⟩
  · exact iff_of_true ⟨_, he⟩ (fun h => absurd h hversion)
  · exact iff_of_true ⟨_, hok⟩ (fun _ h => absurd hcount h)
  · rw [hparse]
    constructor
    · rintro ⟨r, hr⟩ - -
      obtain ⟨tail, htail, -⟩ := bind_eq_ok.mp hr
      exact (slice_isOk_iff.mp ⟨tail, htail⟩).1
    · intro h
      rw [slice_tail (h hversion hcount), ok_bind]
      obtain ⟨t, ht⟩ := SectionTable.from_bytes_isOk
        (bytes.drop header.section_table_offset.toNat) header.section_count
      rw [ht]
      exact ⟨_, rfl⟩

theorem parse_pax_eq_ok_iff {file : InputFile} {pax : ParsedPax} :
    parse_pax file.1 file.2 = .ok (.ok pax) ↔ Accepts file pax := by
  obtain ⟨path, _ | bytes⟩ := file
  · constructor
    · intro h
      cases h
    · rintro ⟨h, -⟩
      cases h
  unfold Accepts
  rcases parse_pax_cases path bytes with ⟨hnone, e, he⟩ | ⟨header, hheader, hcases⟩
  · rw [he]
    constructor
    · intro h
      cases h
    · rintro ⟨h, hsome, -⟩
      cases h
      rw [hnone] at hsome
      cases hsome
  rcases hcases with ⟨hversion, e, he⟩ | ⟨hversion, hcount, hok⟩ | ⟨hversion, hcount, hparse⟩
  · rw [he]
    constructor
    · intro h
      cases h
    · rintro ⟨h, hsome, hv, -⟩
      cases h
      cases hheader.symm.trans hsome
      exact absurd hv hversion
  · rw [hok]
    constructor
    · intro h
      cases h
      exact ⟨rfl, hheader, hversion, by rw [if_pos hcount]⟩
    · rintro ⟨h, hsome, -, htable⟩
      cases h
      cases hheader.symm.trans hsome
      rw [if_pos hcount] at htable
      rw [← htable]
  · rw [hparse]
    constructor
    · intro h
      obtain ⟨tail, htail, h⟩ := bind_eq_ok.mp h
      have hstart := (slice_isOk_iff.mp ⟨tail, htail⟩).1
      rw [slice_tail hstart] at htail
      cases htail
      obtain ⟨t, ht, h⟩ := bind_eq_ok.mp h
      rcases t with _ | table
      · cases h
      · cases h
        exact ⟨rfl, hheader, hversion, by rw [if_neg hcount]; exact ⟨hstart, ht⟩⟩
    · rintro ⟨h, hsome, -, htable⟩
      cases h
      cases hheader.symm.trans hsome
      rw [if_neg hcount] at htable
      rw [slice_tail htable.1, ok_bind, htable.2, ok_bind, tableResult]

/-- Up to the first file that is not accepted, every file has its section
table start inside it. -/
def TablesStartInside : List InputFile → Prop
  | [] => True
  | file :: files =>
    TableStartsInside file.2 ∧ ((∃ pax, Accepts file pax) → TablesStartInside files)

theorem parse_inputs_isOk_iff {files : List InputFile} :
    (∃ r, parse_inputs files = .ok r) ↔ TablesStartInside files := by
  induction files with
  | nil => exact iff_of_true ⟨_, rfl⟩ trivial
  | cons file files ih =>
    rw [TablesStartInside, ← ih, ← @parse_pax_isOk_iff file.1]
    constructor
    · rintro ⟨r, hr⟩
      obtain ⟨p, hp, hr⟩ := bind_eq_ok.mp hr
      refine ⟨⟨p, hp⟩, ?_⟩
      rintro ⟨pax, hpax⟩
      cases hp.symm.trans (parse_pax_eq_ok_iff.mpr hpax)
      obtain ⟨rest, hrest, -⟩ := bind_eq_ok.mp hr
      exact ⟨rest, hrest⟩
    · rintro ⟨⟨p, hp⟩, hrest⟩
      rw [parse_inputs, hp, ok_bind]
      rcases p with e | pax
      · exact ⟨_, rfl⟩
      · obtain ⟨rest, hrest⟩ := hrest ⟨pax, parse_pax_eq_ok_iff.mp hp⟩
        simp only [hrest, ok_bind]
        rcases rest with e | paxes
        · exact ⟨_, rfl⟩
        · exact ⟨_, rfl⟩

theorem parse_inputs_eq_ok_iff {files : List InputFile} {ps : List ParsedPax} :
    parse_inputs files = .ok (.ok ps) ↔ List.Forall₂ Accepts files ps := by
  induction files generalizing ps with
  | nil =>
    constructor
    · intro h
      cases h
      exact .nil
    · rintro ⟨⟩
      rfl
  | cons file files ih =>
    constructor
    · intro h
      obtain ⟨p, hp, h⟩ := bind_eq_ok.mp h
      rcases p with e | pax
      · cases h
      · obtain ⟨rest, hrest, h⟩ := bind_eq_ok.mp h
        rcases rest with e | paxes
        · cases h
        · cases h
          exact .cons (parse_pax_eq_ok_iff.mp hp) (ih.mp hrest)
    · rintro (_ | ⟨hpax, hrest⟩)
      rw [parse_inputs, parse_pax_eq_ok_iff.mpr hpax, ok_bind]
      simp only [ih.mpr hrest, ok_bind]

/-! ## The whole run -/

/-- The files on which no phase crashes. The first condition is about the
files up to the first rejected one; the others apply when all are accepted. -/
structure LinkSafe (files : List InputFile) : Prop where
  tables : TablesStartInside files
  symbols : ∀ ps, List.Forall₂ Accepts files ps → ∀ p ∈ ps, p.TablesReadable
  contents : ∀ ps, List.Forall₂ Accepts files ps → Answered ps → ∀ p ∈ ps, p.Relocatable

theorem relocate_inputs_files {ps : List ParsedPax} {resolved : ResolvedLink}
    {relocated : RelocatedLink} (h : relocate_inputs ps resolved = .ok relocated) (hne : ps ≠ []) :
    relocated.pax_files ≠ [] := by
  obtain ⟨files, hfiles, h⟩ := bind_eq_ok.mp h
  cases h
  rintro rfl
  have hlen := congrArg List.length (relocate_from_lengths hfiles)
  simp only [List.map_nil, List.length_nil, List.length_map] at hlen
  exact hne (List.length_eq_zero_iff.mp hlen.symm)

/-- The linker runs through, with an error or an image, exactly on these
files. -/
theorem link_runs_through_iff (blake3 : List UInt8 → Vector UInt8 32) (files : List InputFile) :
    (∃ r, link blake3 files = .ok r) ↔ LinkSafe files := by
  constructor
  · rintro ⟨r, h⟩
    obtain ⟨parsed, hparsed, h⟩ := Outcome.bind_eq_ok.mp h
    have htables := parse_inputs_isOk_iff.mp ⟨parsed, hparsed⟩
    rcases parsed with e | ps
    · refine ⟨htables, ?_, ?_⟩
      all_goals
        intro ps hps
        cases hparsed.symm.trans (parse_inputs_eq_ok_iff.mpr hps)
    obtain ⟨⟨resolved, diagnostics⟩, hresolve, h⟩ := Outcome.bind_eq_ok.mp h
    have hread := tablesReadable_of_resolve hresolve
    obtain ⟨link', ds, hresolve', hsome, hlen⟩ := resolve_inputs_ends hread
    cases hresolve.symm.trans hresolve'
    refine ⟨htables, ?_, ?_⟩
    · intro qs hqs
      cases hparsed.symm.trans (parse_inputs_eq_ok_iff.mpr hqs)
      exact hread
    · intro qs hqs hanswered
      cases hparsed.symm.trans (parse_inputs_eq_ok_iff.mpr hqs)
      obtain ⟨l, rfl⟩ := Option.isSome_iff_exists.mp (hsome.mpr hanswered)
      obtain ⟨relocated, hrelocated, -⟩ := Outcome.bind_eq_ok.mp h
      exact (relocate_inputs_isOk_iff (hlen l rfl).2.ge).mp ⟨relocated, hrelocated⟩
  · intro hsafe
    obtain ⟨parsed, hparsed⟩ := parse_inputs_isOk_iff.mpr hsafe.tables
    rw [link, hparsed, Outcome.ok_bind]
    rcases parsed with e | ps
    · exact ⟨_, rfl⟩
    have hps := parse_inputs_eq_ok_iff.mp hparsed
    obtain ⟨link', ds, hresolve, hsome, hlen⟩ := resolve_inputs_ends (hsafe.symbols ps hps)
    simp only [hresolve, Outcome.ok_bind]
    rcases link' with _ | l
    · exact ⟨_, rfl⟩
    have hanswered := hsome.mp rfl
    obtain ⟨relocated, hrelocated⟩ := (relocate_inputs_isOk_iff (hlen l rfl).2.ge).mpr
      (hsafe.contents ps hps hanswered)
    obtain ⟨out, hout⟩ := (emit_final_pax_isOk_iff blake3).mpr (relocate_inputs_files hrelocated)
    simp only [hrelocated, Outcome.ok_bind, hout]
    exact ⟨_, rfl⟩

/-- A header that announces one section, in a table behind the end of the
file. -/
def farTable : List UInt8 :=
  PaxHeader.to_bytes { PaxHeader.new .X86_64 with section_table_offset := 97, section_count := 1 }

/-- The linker crashes on it. -/
theorem far_table_panics : link frontHash [("far.pax", .ok farTable)] = .error .panic := by
  have hread := PaxHeader.from_bytes_to_bytes
    { PaxHeader.new .X86_64 with section_table_offset := 97, section_count := 1 } [] rfl
  rw [List.append_nil] at hread
  have hparse : parse_pax "far.pax" (.ok farTable) = .error .panic := by
    rw [parse_pax]
    simp only [farTable, hread, Outcome.ok_bind]
    rfl
  rw [link, parse_inputs, hparse]
  rfl

end paideia_as_linker
