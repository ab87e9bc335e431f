-- The emit phase of the linker, the driver that runs the four phases, and the
-- content hash of the image that is written.
import PaideiaAs.Linker.Relocate
import PaideiaAs.Pax.Hash

namespace paideia_as_linker

open Buffer Bytes paideia_as_emitter_pax

/-! ## The phase -/

variable (blake3 : List UInt8 → Vector UInt8 32)

/-- The contents of one more input behind the merged ones, by index. -/
def extend_sections : List (List UInt8) → List (List UInt8) → List (List UInt8)
  | [], _ => []
  | m :: ms, [] => m :: ms
  | m :: ms, c :: cs => (m ++ c) :: extend_sections ms cs

/-- The merged sections: `n` of them, the first input in front. -/
def merged_sections (n : Nat) (first : RelocatedPax) (others : List RelocatedPax) :
    List (List UInt8) :=
  others.foldl (fun merged f => extend_sections merged f.section_contents)
    (extend_sections (List.replicate n []) first.section_contents)

/-- The header of an image without inputs, before it is hashed. -/
def minimalHeader : PaxHeader :=
  let header := PaxHeader.new .X86_64
  { header with
    flags := header.flags ||| HeaderFlag.Executable.bits
    section_table_offset := 96
    section_count := 0 }

def emit_minimal_pax : List UInt8 :=
  let section_table := SectionTable.new
  let hash := compute_content_hash blake3 minimalHeader section_table []
  let header := { minimalHeader with blake3_content_hash := hash }
  header.to_bytes ++ section_table.to_bytes

/-- The header of the first input with the executable flag, as it is hashed. -/
def linkedHeader (first : ParsedPax) : PaxHeader :=
  { first.header with flags := first.header.flags ||| HeaderFlag.Executable.bits }

def emit_final_pax (inputs : List ParsedPax) (relocated : RelocatedLink) : Outcome (List UInt8) :=
  match inputs with
  | [] => .ok (emit_minimal_pax blake3)
  | first_input :: _ => do
    let first_relocated ← Outcome.expect relocated.pax_files.head?
    let header := linkedHeader first_input
    let section_table := first_input.section_table
    let merged_sections := merged_sections section_table.sections.length first_relocated
      relocated.pax_files.tail
    let hash := compute_content_hash blake3 header section_table merged_sections
    let header := { header with blake3_content_hash := hash }
    let result := header.to_bytes
    let section_table_offset := UInt64.ofNat result.length
    let header := { header with section_table_offset := section_table_offset }
    let result := result ++ section_table.to_bytes
    let result := result ++ merged_sections.flatten
    let hdr := { header with
      section_table_offset := section_table_offset
      blake3_content_hash := hash }
    -- the header again, now with the offset of the table
    copyInto result 0 hdr.to_bytes

inductive LinkError where
  | Parse (e : ParseError)
  | Resolve (msg : String)
  deriving DecidableEq

/-- The bytes that the driver writes to the output path. -/
def link (files : List (String × Except String (List UInt8))) :
    Outcome (Except LinkError (List UInt8)) := do
  match ← parse_inputs files with
  | .error e => .ok (.error (.Parse e))
  | .ok inputs =>
    let (resolved, diagnostics) ← resolve_inputs inputs
    match resolved with
    | none => .ok (.error (.Resolve
        ("resolve phase failed with " ++ toString diagnostics.length ++ " diagnostics")))
    | some resolved =>
      let relocated ← relocate_inputs inputs resolved
      let output_bytes ← emit_final_pax blake3 inputs relocated
      .ok (.ok output_bytes)

def writtenHeader (first : ParsedPax) (hash : Vector UInt8 32) : PaxHeader :=
  { linkedHeader first with section_table_offset := 96, blake3_content_hash := hash }

variable (first : ParsedPax)

/-- The image of inputs that are there: header, table, contents. -/
theorem emit_final_pax_cons (rest : List ParsedPax) (f : RelocatedPax) (fs : List RelocatedPax) :
    emit_final_pax blake3 (first :: rest) ⟨f :: fs⟩ =
      .ok ((writtenHeader first (compute_content_hash blake3 (linkedHeader first)
          first.section_table (merged_sections first.section_table.sections.length f fs))).to_bytes ++
        (first.section_table.to_bytes ++
          (merged_sections first.section_table.sections.length f fs).flatten)) := by
  unfold emit_final_pax
  simp only [List.head?_cons, Outcome.expect_some, Outcome.ok_bind, List.tail_cons,
    PaxHeader.length_to_bytes, List.append_assoc, copyInto]
  rw [if_pos (by simp)]
  have hpatch := patch_append [] (PaxHeader.to_bytes { linkedHeader first with
      blake3_content_hash := compute_content_hash blake3 (linkedHeader first) first.section_table
        (merged_sections first.section_table.sections.length f fs) })
    (first.section_table.to_bytes ++
      (merged_sections first.section_table.sections.length f fs).flatten)
    (PaxHeader.to_bytes (writtenHeader first (compute_content_hash blake3 (linkedHeader first)
      first.section_table (merged_sections first.section_table.sections.length f fs)))) (by simp)
  rw [List.nil_append, List.nil_append] at hpatch
  exact congrArg Except.ok hpatch

/-- The emit phase needs one relocated input when there are inputs. -/
theorem emit_final_pax_isOk_iff {inputs : List ParsedPax} {relocated : RelocatedLink} :
    (∃ out, emit_final_pax blake3 inputs relocated = .ok out) ↔
      (inputs ≠ [] → relocated.pax_files ≠ []) := by
  rcases inputs with _ | ⟨first, rest⟩
  · simp [emit_final_pax]
  · obtain ⟨_ | ⟨f, fs⟩⟩ := relocated
    · simp [emit_final_pax]
    · simp [emit_final_pax_cons]

/-! ## The hash of the image -/

/-- The hash in the header is the hash of the header, the table and the
contents as they are written. -/
def HashVerifies (out : List UInt8) : Prop :=
  ∃ header table contents, out = header.to_bytes ++ (table.to_bytes ++ contents.flatten) ∧
    header.blake3_content_hash = compute_content_hash blake3 header table contents

/-- Only the header and the bytes behind it matter. -/
theorem hashVerifies_iff (header : PaxHeader) (table : SectionTable) (contents : List (List UInt8)) :
    HashVerifies blake3 (header.to_bytes ++ (table.to_bytes ++ contents.flatten)) ↔
      header.blake3_content_hash = compute_content_hash blake3 header table contents := by
  constructor
  · rintro ⟨header', table', contents', heq, hhash⟩
    obtain ⟨hheader, hrest⟩ := List.append_inj heq (by simp)
    obtain rfl := PaxHeader.to_bytes_inj hheader
    rw [hhash]
    unfold compute_content_hash CanonicalContent.finalize
    rw [canonicalContent_bytes, canonicalContent_bytes, hrest]
  · exact fun h => ⟨header, table, contents, rfl, h⟩

/-- The header that is hashed and the header that is written, with their hash
and signature slots zeroed, have the same bytes only if the first input had its
table at 96. -/
theorem streams_eq_iff (hash : Vector UInt8 32) (table : SectionTable)
    (contents : List (List UInt8)) :
    (canonicalContent (linkedHeader first) table contents).bytes =
        (canonicalContent (writtenHeader first hash) table contents).bytes ↔
      first.header.section_table_offset = 96 := by
  rw [canonicalContent_bytes, canonicalContent_bytes]
  constructor
  · intro h
    have hunsigned := PaxHeader.to_bytes_inj (List.append_inj h (by simp)).1
    exact congrArg PaxHeader.section_table_offset hunsigned
  · intro h
    have hunsigned : (linkedHeader first).unsigned = (writtenHeader first hash).unsigned := by
      simp only [PaxHeader.unsigned, linkedHeader, writtenHeader, h]
    rw [hunsigned]

def hashedStream (first : ParsedPax) (contents : List (List UInt8)) : List UInt8 :=
  (canonicalContent (linkedHeader first) first.section_table contents).bytes

def writtenStream (first : ParsedPax) (contents : List (List UInt8)) : List UInt8 :=
  (canonicalContent { linkedHeader first with section_table_offset := 96 } first.section_table
    contents).bytes

theorem writtenStream_eq (contents : List (List UInt8)) (hash : Vector UInt8 32) :
    (canonicalContent (writtenHeader first hash) first.section_table contents).bytes =
      writtenStream first contents := by
  rw [writtenStream, canonicalContent_bytes, canonicalContent_bytes]
  rfl

/-- The header carries the hash of the one stream, and is checked against the
hash of the other. -/
theorem stored_hash_iff (contents : List (List UInt8)) :
    (writtenHeader first (compute_content_hash blake3 (linkedHeader first) first.section_table
        contents)).blake3_content_hash =
      compute_content_hash blake3 (writtenHeader first (compute_content_hash blake3
        (linkedHeader first) first.section_table contents)) first.section_table contents ↔
    first.header.section_table_offset = 96 ∨
      (hashedStream first contents ≠ writtenStream first contents ∧
        blake3 (hashedStream first contents) = blake3 (writtenStream first contents)) := by
  have hstreams := streams_eq_iff first
    (compute_content_hash blake3 (linkedHeader first) first.section_table contents)
    first.section_table contents
  have hchecked : compute_content_hash blake3 (writtenHeader first (compute_content_hash blake3
      (linkedHeader first) first.section_table contents)) first.section_table contents =
      blake3 (writtenStream first contents) := by
    rw [← writtenStream_eq]
    rfl
  rw [hchecked, ← hstreams, writtenStream_eq]
  change blake3 (hashedStream first contents) = blake3 (writtenStream first contents) ↔
    hashedStream first contents = writtenStream first contents ∨ _
  constructor
  · intro h
    by_cases heq : hashedStream first contents = writtenStream first contents
    · exact .inl heq
    · exact .inr ⟨heq, h⟩
  · rintro (heq | ⟨-, h⟩)
    · rw [heq]
    · exact h

/-- The emitted hash verifies exactly when the first input has its section
table at 96, where the emitter puts it, unless the two streams collide. -/
theorem emitted_hash_verifies_iff {inputs : List ParsedPax} {relocated : RelocatedLink}
    {out : List UInt8} (h : emit_final_pax blake3 inputs relocated = .ok out) :
    HashVerifies blake3 out ↔ ∀ first rest f fs, inputs = first :: rest →
      relocated.pax_files = f :: fs →
      first.header.section_table_offset = 96 ∨
        (hashedStream first (merged_sections first.section_table.sections.length f fs) ≠
            writtenStream first (merged_sections first.section_table.sections.length f fs) ∧
          blake3 (hashedStream first (merged_sections first.section_table.sections.length f fs)) =
            blake3 (writtenStream first
              (merged_sections first.section_table.sections.length f fs))) := by
  rcases inputs with _ | ⟨first, rest⟩
  · -- nothing to link: the header is final before it is hashed
    cases h
    refine iff_of_true ?_ (fun _ _ _ _ h => by cases h)
    refine ⟨{ minimalHeader with
      blake3_content_hash := compute_content_hash blake3 minimalHeader SectionTable.new [] },
      SectionTable.new, [], by simp [emit_minimal_pax], ?_⟩
    unfold compute_content_hash CanonicalContent.finalize
    rw [canonicalContent_bytes, canonicalContent_bytes]
    rfl
  · obtain ⟨_ | ⟨f, fs⟩⟩ := relocated
    · cases h
    · rw [emit_final_pax_cons] at h
      cases h
      rw [hashVerifies_iff, stored_hash_iff]
      constructor
      · rintro h _ _ _ _ ⟨⟩ ⟨⟩
        exact h
      · exact fun h => h first rest f fs rfl rfl

/-! ## A bare header -/

/-- The file that is a fresh header and nothing else: no sections, and the
offset of the table still 0. -/
def bareFile : ParsedPax :=
  ⟨"bare.pax", PaxHeader.new .X86_64, SectionTable.new, (PaxHeader.new .X86_64).to_bytes⟩

theorem parse_bareFile : parse_pax bareFile.path (.ok bareFile.bytes) = .ok (.ok bareFile) := by
  have hread := PaxHeader.from_bytes_to_bytes (PaxHeader.new .X86_64) [] rfl
  rw [List.append_nil] at hread
  unfold parse_pax
  simp only [bareFile, hread, Outcome.ok_bind]
  rfl

/-- The same file with the offset that the emitter writes. -/
def placedFile : ParsedPax :=
  let header := { PaxHeader.new .X86_64 with section_table_offset := 96 }
  ⟨"placed.pax", header, SectionTable.new, header.to_bytes⟩

/-- The first 32 bytes of a stream, as its hash. -/
def frontHash (stream : List UInt8) : Vector UInt8 32 := Vector.ofFn fun i => stream.getD i 0

theorem emitted_hash_verifies_placed :
    ∃ out, emit_final_pax frontHash [placedFile] ⟨[⟨0, []⟩]⟩ = .ok out ∧
      HashVerifies frontHash out := by
  have hemit := emit_final_pax_cons frontHash placedFile [] ⟨0, []⟩ []
  refine ⟨_, hemit, (emitted_hash_verifies_iff frontHash hemit).mpr ?_⟩
  rintro _ _ _ _ ⟨⟩ ⟨⟩
  exact .inl rfl

/-- The bare header is linked into an image whose hash does not verify. -/
theorem bare_header_hash_stale :
    parse_pax bareFile.path (.ok bareFile.bytes) = .ok (.ok bareFile) ∧
    (∃ out, emit_final_pax frontHash [bareFile] ⟨[⟨0, []⟩]⟩ = .ok out ∧
      ¬ HashVerifies frontHash out) ∧
    ∀ blake3 : List UInt8 → Vector UInt8 32,
      blake3 (hashedStream bareFile []) ≠ blake3 (writtenStream bareFile []) →
      ∃ out, emit_final_pax blake3 [bareFile] ⟨[⟨0, []⟩]⟩ = .ok out ∧
        ¬ HashVerifies blake3 out := by
  have hstale : ∀ blake3 : List UInt8 → Vector UInt8 32,
      blake3 (hashedStream bareFile []) ≠ blake3 (writtenStream bareFile []) →
      ∃ out, emit_final_pax blake3 [bareFile] ⟨[⟨0, []⟩]⟩ = .ok out ∧
        ¬ HashVerifies blake3 out := by
    intro blake3 hne
    refine ⟨_, emit_final_pax_cons blake3 bareFile [] ⟨0, []⟩ [], ?_⟩
    rw [hashVerifies_iff, stored_hash_iff]
    rintro (hoffset | ⟨-, hhash⟩)
    · exact absurd hoffset (by decide)
    · exact hne hhash
  refine ⟨parse_bareFile, hstale frontHash ?_, hstale⟩
  intro heq
  have hbyte : (frontHash (hashedStream bareFile [])).get 16 =
      (frontHash (writtenStream bareFile [])).get 16 := by rw [heq]
  exact absurd hbyte (by decide)

end paideia_as_linker
