-- The parse phase of the linker: one PAX file read from its bytes, the
-- contents of its sections, and the list of inputs. The resolve phase: the
-- defined symbols of all inputs in one table, the exported capabilities in
-- another, and a diagnostic for every reference that neither of them answers.
import PaideiaAs.Pax.Header
import PaideiaAs.Pax.Section
import PaideiaAs.Pax.Symbols

namespace paideia_as_linker

open Buffer paideia_as_emitter_pax
open Outcome (bind_eq_ok ok_bind)

/-- One parsed PAX input. -/
structure ParsedPax where
  path : String
  header : PaxHeader
  section_table : SectionTable
  bytes : List UInt8

/-- `a + b` on `usize`. A sum past `2^64` panics where overflow is checked;
where it is not, the sum wraps to less than `a`. -/
def usizeAdd (a b : Nat) : Outcome Nat := if a + b < 2 ^ 64 then .ok (a + b) else .error .panic

namespace ParsedPax

/-- The content of a section, cut at the end of the file. An end that wraps
lies below the start, and the slice is a panic all the same. -/
def section_content (pax : ParsedPax) (s : Section) : Outcome (List UInt8) :=
  if s.content_size = 0 then .ok []
  else do
    let start := s.content_offset.toNat
    let stop ← usizeAdd start s.content_size.toNat
    slice pax.bytes start (min stop pax.bytes.length)

end ParsedPax

inductive ParseError where
  | Io (msg : String)
  | NotPax
  | UnsupportedVersion (v : UInt16)
  | TruncatedHeader
  | TruncatedSectionTable
  deriving DecidableEq

/-- `file` is what `fs::read` gives for the path. -/
def parse_pax (path : String) (file : Except String (List UInt8)) :
    Outcome (Except ParseError ParsedPax) :=
  match file with
  | .error msg => .ok (.error (.Io msg))
  | .ok bytes =>
    if bytes.length < PAX_HEADER_SIZE then .ok (.error .TruncatedHeader)
    else do
      match ← PaxHeader.from_bytes bytes with
      | none => .ok (.error .NotPax)
      | some header =>
        if header.format_version ≠ PAX_FORMAT_VERSION then
          .ok (.error (.UnsupportedVersion header.format_version))
        else
          let section_table_start := header.section_table_offset.toNat
          let section_count := header.section_count
          if section_count = 0 then .ok (.ok ⟨path, header, SectionTable.new, bytes⟩)
          else
            let section_table_bytes ← slice bytes section_table_start bytes.length
            match ← SectionTable.from_bytes section_table_bytes section_count with
            | none => .ok (.error .TruncatedSectionTable)
            | some section_table => .ok (.ok ⟨path, header, section_table, bytes⟩)

/-- The inputs in order; the first error ends the phase. -/
def parse_inputs : List (String × Except String (List UInt8)) →
    Outcome (Except ParseError (List ParsedPax))
  | [] => .ok (.ok [])
  | (path, file) :: files => do
    match ← parse_pax path file with
    | .error e => .ok (.error e)
    | .ok pax =>
      match ← parse_inputs files with
      | .error e => .ok (.error e)
      | .ok paxes => .ok (.ok (pax :: paxes))

/-! ## Sections that lie in their file -/

/-- The section starts inside the file, and its end is a `usize`. -/
def ParsedPax.Inside (pax : ParsedPax) (s : Section) : Prop :=
  s.content_size = 0 ∨
    (s.content_offset.toNat + s.content_size.toNat < 2 ^ 64 ∧
      s.content_offset.toNat ≤ pax.bytes.length)

/-- The content that `section_content` cuts out of the file. -/
def ParsedPax.content (pax : ParsedPax) (s : Section) : List UInt8 :=
  (pax.bytes.drop s.content_offset.toNat).take s.content_size.toNat

variable {pax : ParsedPax} {s : Section}

theorem section_content_of_inside (h : pax.Inside s) :
    pax.section_content s = .ok (pax.content s) := by
  unfold ParsedPax.section_content ParsedPax.content
  by_cases hzero : s.content_size = 0
  · rw [if_pos hzero, hzero]
    simp
  · rcases h with h | ⟨hsum, hstart⟩
    · exact absurd h hzero
    · rw [if_neg hzero]
      simp only [usizeAdd]
      rw [if_pos hsum, ok_bind, slice_eq_ok (by omega) (by omega)]
      congr 1
      apply List.take_eq_take_iff.mpr
      rw [List.length_drop]
      omega

theorem inside_of_section_content {c : List UInt8}
    (h : pax.section_content s = .ok c) : pax.Inside s := by
  unfold ParsedPax.section_content at h
  unfold ParsedPax.Inside
  split at h
  · next hzero => exact .inl hzero
  · simp only [usizeAdd] at h
    split at h
    · next hsum =>
      rw [ok_bind] at h
      have hbounds := slice_isOk_iff.mp ⟨c, h⟩
      exact .inr ⟨hsum, by omega⟩
    · cases h

theorem section_content_isOk_iff : (∃ c, pax.section_content s = .ok c) ↔ pax.Inside s :=
  ⟨fun ⟨_, h⟩ => inside_of_section_content h, fun h => ⟨_, section_content_of_inside h⟩⟩

/-! ## The phase -/

/-- Where a symbol is defined: the index of the input and the index in its
table. Both are `usize` values; `as u64` keeps them. -/
abbrev Place := Nat × Nat

/-- The map of the definitions, and the map of their bindings. -/
structure GlobalSymbolTable where
  by_hash : UInt64 → Option Place
  bindings : UInt64 → Option SymBinding

def GlobalSymbolTable.default : GlobalSymbolTable := ⟨fun _ => none, fun _ => none⟩

structure GlobalCapabilityTable where
  provided : UInt64 → Option Nat

def GlobalCapabilityTable.default : GlobalCapabilityTable := ⟨fun _ => none⟩

structure ResolvedPax where
  index : Nat
  path : String
  symbol_mapping : Nat → Option UInt64

structure ResolvedLink where
  pax_files : List ResolvedPax
  global_symbol_table : GlobalSymbolTable
  global_capability_table : GlobalCapabilityTable

/-- A diagnostic of category B and severity error. -/
structure Diagnostic where
  number : Nat
  message : String
  deriving DecidableEq

/-- A number as `{:#018x}` prints it. -/
def hex018 (n : UInt64) : String :=
  let digits := String.ofList (Nat.toDigits 16 n.toNat)
  "0x" ++ String.ofList (List.replicate (16 - digits.length) '0') ++ digits

/-- The first section of a type. -/
def ParsedPax.firstOf (pax : ParsedPax) (ty : SectionType) : Option Section :=
  pax.section_table.sections.find? (fun s => s.ty = ty)

def find_section_content_by_type (pax : ParsedPax) (ty : SectionType) :
    Outcome (Option (List UInt8)) :=
  match pax.firstOf ty with
  | none => .ok none
  | some s => do
    let content ← pax.section_content s
    .ok (some content)

/-- The symbol table of an input, as every pass over the inputs reads it. -/
def symtab (pax : ParsedPax) : Outcome (Option SymTab) := do
  match ← find_section_content_by_type pax .Symtab with
  | none => .ok none
  | some symtab_bytes => SymTab.from_bytes symtab_bytes

def exports (pax : ParsedPax) : Outcome (Option ExportsSection) := do
  match ← find_section_content_by_type pax .Exports with
  | none => .ok none
  | some exports_bytes => ExportsSection.from_bytes exports_bytes

def imports (pax : ParsedPax) : Outcome (Option ImportsSection) := do
  match ← find_section_content_by_type pax .Imports with
  | none => .ok none
  | some imports_bytes => ImportsSection.from_bytes imports_bytes

/-- The section index of an undefined symbol. -/
def SHN_UNDEF : UInt32 := 0xFFFFFFFF

namespace GlobalSymbolTable

def insert (t : GlobalSymbolTable) (hash : UInt64) (place : Place) (binding : SymBinding) :
    GlobalSymbolTable :=
  ⟨Function.update t.by_hash hash (some place), Function.update t.bindings hash (some binding)⟩

/-- One entry of a symbol table: strong symbols win over weak ones. -/
def index_entry (pax_index local_idx : Nat) (entry : SymEntry) (t : GlobalSymbolTable) :
    GlobalSymbolTable :=
  if entry.section_index ≠ SHN_UNDEF then
    let hash := entry.blake3_name_hash
    match t.bindings hash with
    | none => t.insert hash (pax_index, local_idx) entry.binding
    | some .Weak =>
      if entry.binding ≠ .Weak then t.insert hash (pax_index, local_idx) entry.binding else t
    | some .Local | some .Global =>
      -- the guard asks for a weak definition where there is none
      if entry.binding = .Global ∧ t.bindings hash = some .Weak then
        t.insert hash (pax_index, local_idx) entry.binding
      else t
  else t

def index_entries (pax_index : Nat) : Nat → List SymEntry → GlobalSymbolTable → GlobalSymbolTable
  | _, [], t => t
  | local_idx, entry :: entries, t =>
    index_entries pax_index (local_idx + 1) entries (t.index_entry pax_index local_idx entry)

end GlobalSymbolTable

/-- Phase 1: the defined symbols of all inputs. -/
def index_symbols : Nat → List ParsedPax → GlobalSymbolTable → Outcome GlobalSymbolTable
  | _, [], t => .ok t
  | pax_index, pax :: inputs, t => do
    match ← symtab pax with
    | none => index_symbols (pax_index + 1) inputs t
    | some st => index_symbols (pax_index + 1) inputs (t.index_entries pax_index 0 st.entries)

/-- Phase 2: the exported capabilities of all inputs. -/
def index_exports : Nat → List ParsedPax → GlobalCapabilityTable → Outcome GlobalCapabilityTable
  | _, [], t => .ok t
  | pax_index, pax :: inputs, t => do
    match ← exports pax with
    | none => index_exports (pax_index + 1) inputs t
    | some es =>
      index_exports (pax_index + 1) inputs
        ⟨es.entries.foldl (fun m cap => Function.update m cap.blake3_name_hash (some pax_index))
          t.provided⟩

/-- Phase 3: a diagnostic for each undefined symbol that no input defines. -/
def check_symbols (t : GlobalSymbolTable) : List ParsedPax → Outcome (List Diagnostic)
  | [] => .ok []
  | pax :: inputs => do
    let missing : List SymEntry := match ← symtab pax with
      | none => []
      | some st => st.entries.filter fun entry =>
          entry.section_index = SHN_UNDEF ∧ (t.by_hash entry.blake3_name_hash).isNone
    let rest ← check_symbols t inputs
    .ok (missing.map (fun entry => ⟨1700, "undefined symbol: " ++ pax.path ++ " (hash: " ++
      hex018 entry.blake3_name_hash ++ ")"⟩) ++ rest)

/-- Phase 4: a diagnostic for each imported capability that no input exports. -/
def check_imports (t : GlobalCapabilityTable) : List ParsedPax → Outcome (List Diagnostic)
  | [] => .ok []
  | pax :: inputs => do
    let missing : List CapDescriptor := match ← imports pax with
      | none => []
      | some is => is.entries.filter fun cap => (t.provided cap.blake3_name_hash).isNone
    let rest ← check_imports t inputs
    .ok (missing.map (fun cap => ⟨1701, "unbound capability: " ++ pax.path ++ " (hash: " ++
      hex018 cap.blake3_name_hash ++ ")"⟩) ++ rest)

/-- Phase 5: the hash of each symbol of each input. -/
def symbol_mappings : Nat → List ParsedPax → Outcome (List ResolvedPax)
  | _, [] => .ok []
  | pax_index, pax :: inputs => do
    let symbol_mapping := match ← symtab pax with
      | none => fun _ => none
      | some st => fun local_idx => st.entries[local_idx]?.map SymEntry.blake3_name_hash
    let rest ← symbol_mappings (pax_index + 1) inputs
    .ok (⟨pax_index, pax.path, symbol_mapping⟩ :: rest)

/-- The phase as a whole: the link, unless there was an error, and the
diagnostics that went to the sink. -/
def resolve_inputs (inputs : List ParsedPax) : Outcome (Option ResolvedLink × List Diagnostic) := do
  let global_symbol_table ← index_symbols 0 inputs .default
  let global_capability_table ← index_exports 0 inputs .default
  let undefined ← check_symbols global_symbol_table inputs
  let unbound ← check_imports global_capability_table inputs
  let pax_files ← symbol_mappings 0 inputs
  let diagnostics := undefined ++ unbound
  if diagnostics ≠ [] then .ok (none, diagnostics)
  else .ok (some ⟨pax_files, global_symbol_table, global_capability_table⟩, diagnostics)

/-! ## Tables that can be read -/

/-- The first section of the type, the one that the linker reads, lies in the
file. -/
def ParsedPax.Readable (pax : ParsedPax) (ty : SectionType) : Prop :=
  ∀ s, pax.firstOf ty = some s → pax.Inside s

theorem find_section_content_isOk_iff {ty : SectionType} :
    (∃ r, find_section_content_by_type pax ty = .ok r) ↔ pax.Readable ty := by
  unfold find_section_content_by_type ParsedPax.Readable
  rcases pax.firstOf ty with _ | s
  · simp
  · simp only [Option.some.injEq, forall_eq']
    rw [← section_content_isOk_iff]
    constructor
    · rintro ⟨r, hr⟩
      obtain ⟨c, hc, -⟩ := bind_eq_ok.mp hr
      exact ⟨c, hc⟩
    · rintro ⟨c, hc⟩
      exact ⟨some c, by rw [hc, ok_bind]⟩

/-- A table is read without a fault exactly when its section lies in the file:
the reader of the table itself never fails. -/
theorem table_isOk_iff {α : Type} {read : List UInt8 → Outcome (Option α)} {ty : SectionType}
    (hread : ∀ bs, ∃ r, read bs = .ok r) :
    (∃ r, (do
      match ← find_section_content_by_type pax ty with
      | none => .ok none
      | some bytes => read bytes) = .ok r) ↔ pax.Readable ty := by
  rw [← find_section_content_isOk_iff]
  constructor
  · rintro ⟨r, hr⟩
    obtain ⟨c, hc, -⟩ := bind_eq_ok.mp hr
    exact ⟨c, hc⟩
  · rintro ⟨c, hc⟩
    rw [hc, ok_bind]
    rcases c with _ | bytes
    · exact ⟨none, rfl⟩
    · exact hread bytes

theorem symtab_isOk_iff : (∃ r, symtab pax = .ok r) ↔ pax.Readable .Symtab :=
  table_isOk_iff SymTab.from_bytes_isOk

theorem exports_isOk_iff : (∃ r, exports pax = .ok r) ↔ pax.Readable .Exports :=
  table_isOk_iff ExportsSection.from_bytes_isOk

theorem imports_isOk_iff : (∃ r, imports pax = .ok r) ↔ pax.Readable .Imports :=
  table_isOk_iff ImportsSection.from_bytes_isOk

end paideia_as_linker
