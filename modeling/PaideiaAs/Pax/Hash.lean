-- The content hash of a PAX image: the byte string that is hashed, and what
-- that string says about the image. The hash function itself is a parameter.
import PaideiaAs.Pax.Header
import PaideiaAs.Pax.Section

namespace paideia_as_emitter_pax

open Buffer Bytes
open List (append_inj length map_cons replicate)

/-! ## The canonical byte stream -/

/-- The bytes that are hashed. -/
structure CanonicalContent where
  bytes : List UInt8

namespace CanonicalContent

/-- Hash and signature are zeroed. -/
def new (header : PaxHeader) (table : SectionTable) : CanonicalContent :=
  let hdr_bytes := header.to_bytes
  let hdr_bytes := patch hdr_bytes 32 (replicate 32 0)
  let hdr_bytes := patch hdr_bytes 64 (replicate 32 0)
  ⟨hdr_bytes ++ table.to_bytes⟩

/-- Contents follow one another without a mark. -/
def append_section_content (c : CanonicalContent) (content : List UInt8) : CanonicalContent :=
  ⟨c.bytes ++ content⟩

def finalize (blake3 : List UInt8 → Vector UInt8 32) (c : CanonicalContent) : Vector UInt8 32 :=
  blake3 c.bytes

end CanonicalContent

/-- The stream that `compute_content_hash` builds. -/
def canonicalContent (header : PaxHeader) (table : SectionTable)
    (section_contents : List (List UInt8)) : CanonicalContent :=
  section_contents.foldl CanonicalContent.append_section_content (CanonicalContent.new header table)

/-- The hash of the stream. -/
def compute_content_hash (blake3 : List UInt8 → Vector UInt8 32) (header : PaxHeader)
    (table : SectionTable) (section_contents : List (List UInt8)) : Vector UInt8 32 :=
  (canonicalContent header table section_contents).finalize blake3

/-! ## What is in the stream -/

/-- The header outside the hash and signature slots. -/
def PaxHeader.unsigned (h : PaxHeader) : PaxHeader :=
  { h with
    blake3_content_hash := Vector.replicate 32 0
    pq_signature_placeholder := Vector.replicate 32 0 }

/-- A section of zeros stores nothing. -/
def Section.storedSize (s : Section) : Nat :=
  if s.flags &&& SectionFlag.BssNoContent.bits ≠ 0 then 0 else s.content_size.toNat

/-- The table and the contents are those that the header and the descriptors
announce. -/
structure WellSized (header : PaxHeader) (table : SectionTable)
    (contents : List (List UInt8)) : Prop where
  count : header.section_count.toNat = table.sections.length
  sizes : contents.map length = table.sections.map Section.storedSize

theorem zeroed_to_bytes (h : PaxHeader) :
    patch (patch h.to_bytes 32 (replicate 32 0)) 64 (replicate 32 0) = h.unsigned.to_bytes := by
  have hfront : ∀ (hash sig : Vector UInt8 32),
      ({ h with blake3_content_hash := hash, pq_signature_placeholder := sig } :
        PaxHeader).to_bytes =
        (h.magic.toList ++ (u16 h.format_version ++ (u16 h.architecture.code ++ (u64 h.flags ++
          (u64 h.section_table_offset ++ (u32 h.section_count ++ u32 h.reserved)))))) ++
          hash.toList ++ sig.toList := by
    intro hash sig
    simp [PaxHeader.to_bytes]
  have hbytes := hfront h.blake3_content_hash h.pq_signature_placeholder
  have hunsigned := hfront (Vector.replicate 32 0) (Vector.replicate 32 0)
  -- the fields in front of the two slots take 32 bytes
  generalize hF : (h.magic.toList ++ (u16 h.format_version ++ (u16 h.architecture.code ++
    (u64 h.flags ++ (u64 h.section_table_offset ++ (u32 h.section_count ++ u32 h.reserved)))))) =
    F at hbytes hunsigned
  have hlen : F.length = 32 := by rw [← hF]; simp
  have hslot : (F ++ replicate 32 (0 : UInt8)).length = 64 := by simp [hlen]
  have hhash := patch_append F h.blake3_content_hash.toList h.pq_signature_placeholder.toList
    (replicate 32 0) (by simp)
  have hsig := patch_append (F ++ replicate 32 (0 : UInt8)) h.pq_signature_placeholder.toList
    [] (replicate 32 0) (by simp)
  rw [hlen] at hhash
  rw [hslot] at hsig
  simp only [List.append_nil] at hsig
  rw [hbytes, hhash, hsig, PaxHeader.unsigned, hunsigned]
  simp

theorem canonicalContent_bytes (header : PaxHeader) (table : SectionTable)
    (contents : List (List UInt8)) :
    (canonicalContent header table contents).bytes =
      header.unsigned.to_bytes ++ (table.to_bytes ++ contents.flatten) := by
  have hfold : ∀ (cs : List (List UInt8)) (c : CanonicalContent),
      (cs.foldl CanonicalContent.append_section_content c).bytes = c.bytes ++ cs.flatten := by
    intro cs
    induction cs with
    | nil => simp
    | cons x xs ih =>
      intro c
      rw [List.foldl_cons, ih, List.flatten_cons]
      simp [CanonicalContent.append_section_content]
  rw [canonicalContent, hfold, CanonicalContent.new, List.append_assoc]
  exact congrArg (· ++ (table.to_bytes ++ contents.flatten)) (zeroed_to_bytes header)

/-! ## The stream determines the image -/

theorem PaxHeader.to_bytes_inj {h k : PaxHeader} (heq : h.to_bytes = k.to_bytes) : h = k := by
  unfold PaxHeader.to_bytes at heq
  obtain ⟨hmagic, heq⟩ := append_inj heq (by simp)
  obtain ⟨hversion, heq⟩ := append_inj heq (by simp)
  obtain ⟨-, heq⟩ := append_inj heq (by simp)
  obtain ⟨hflags, heq⟩ := append_inj heq (by simp)
  obtain ⟨hoffset, heq⟩ := append_inj heq (by simp)
  obtain ⟨hcount, heq⟩ := append_inj heq (by simp)
  obtain ⟨hreserved, heq⟩ := append_inj heq (by simp)
  obtain ⟨hhash, hsig⟩ := append_inj heq (by simp)
  cases h
  cases k
  simp only [PaxHeader.mk.injEq]
  exact ⟨Vector.toList_inj.mp hmagic, u16_inj hversion, trivial, u64_inj hflags, u64_inj hoffset,
    u32_inj hcount, u32_inj hreserved, Vector.toList_inj.mp hhash, Vector.toList_inj.mp hsig⟩

theorem Section.storedSize_of_to_bytes {s t : Section} (heq : s.to_bytes = t.to_bytes) :
    s.storedSize = t.storedSize := by
  unfold Section.to_bytes at heq
  obtain ⟨-, heq⟩ := append_inj heq (by simp)
  obtain ⟨hflags, heq⟩ := append_inj heq (by simp)
  obtain ⟨-, heq⟩ := append_inj heq (by simp)
  obtain ⟨hsize, -⟩ := append_inj heq (by simp)
  rw [storedSize, storedSize, u32_inj hflags, u64_inj hsize]

theorem storedSizes_of_to_bytes {ss ts : List Section} (hlen : ss.length = ts.length)
    (heq : ss.flatMap Section.to_bytes = ts.flatMap Section.to_bytes) :
    ss.map Section.storedSize = ts.map Section.storedSize := by
  induction ss generalizing ts with
  | nil =>
    rw [List.length_nil] at hlen
    rw [List.length_eq_zero_iff.mp hlen.symm]
  | cons s ss ih =>
    rcases ts with _ | ⟨t, ts⟩
    · simp at hlen
    · rw [List.flatMap_cons, List.flatMap_cons] at heq
      obtain ⟨hhead, htail⟩ := append_inj heq (by simp)
      rw [map_cons, map_cons, Section.storedSize_of_to_bytes hhead, ih (Nat.succ.inj hlen) htail]

section

variable {h₁ h₂ : PaxHeader} {t₁ t₂ : SectionTable} {c₁ c₂ : List (List UInt8)}

/-- The image is read off the stream from the front: the header, so the number
of descriptors, so the table, so the sizes of the contents. -/
theorem image_of_canonicalContent (hw₁ : WellSized h₁ t₁ c₁) (hw₂ : WellSized h₂ t₂ c₂)
    (heq : (canonicalContent h₁ t₁ c₁).bytes = (canonicalContent h₂ t₂ c₂).bytes) :
    h₁.unsigned = h₂.unsigned ∧ t₁.to_bytes = t₂.to_bytes ∧ c₁ = c₂ := by
  rw [canonicalContent_bytes, canonicalContent_bytes] at heq
  obtain ⟨hheader, heq⟩ := append_inj heq (by simp)
  have hheader := PaxHeader.to_bytes_inj hheader
  have hcount : h₁.unsigned.section_count = h₂.unsigned.section_count := by rw [hheader]
  have hlen : t₁.sections.length = t₂.sections.length := by
    rw [← hw₁.count, ← hw₂.count]
    exact congrArg UInt32.toNat hcount
  obtain ⟨htable, hcontents⟩ := append_inj heq (by simp [hlen])
  have hsizes : c₁.map length = c₂.map length := by
    rw [hw₁.sizes, hw₂.sizes]
    exact storedSizes_of_to_bytes hlen htable
  exact ⟨hheader, htable, List.eq_iff_flatten_eq.mpr ⟨hcontents, hsizes⟩⟩

/-- Two images with one stream are one image, and so two images with one hash
are one image, or their streams collide. -/
theorem content_hash_preimage_injective (hw₁ : WellSized h₁ t₁ c₁) (hw₂ : WellSized h₂ t₂ c₂) :
    ((canonicalContent h₁ t₁ c₁).bytes = (canonicalContent h₂ t₂ c₂).bytes →
      h₁.unsigned = h₂.unsigned ∧ t₁.to_bytes = t₂.to_bytes ∧ c₁ = c₂) ∧
    ∀ blake3 : List UInt8 → Vector UInt8 32,
      compute_content_hash blake3 h₁ t₁ c₁ = compute_content_hash blake3 h₂ t₂ c₂ →
      (h₁.unsigned = h₂.unsigned ∧ t₁.to_bytes = t₂.to_bytes ∧ c₁ = c₂) ∨
        ((canonicalContent h₁ t₁ c₁).bytes ≠ (canonicalContent h₂ t₂ c₂).bytes ∧
          blake3 (canonicalContent h₁ t₁ c₁).bytes = blake3 (canonicalContent h₂ t₂ c₂).bytes) := by
  refine ⟨image_of_canonicalContent hw₁ hw₂, ?_⟩
  intro blake3 hhash
  by_cases heq : (canonicalContent h₁ t₁ c₁).bytes = (canonicalContent h₂ t₂ c₂).bytes
  · exact .inl (image_of_canonicalContent hw₁ hw₂ heq)
  · exact .inr ⟨heq, hhash⟩

end

/-- An image of a code section with two bytes and a section of 16 bytes that
stores none. -/
def sampleTable : SectionTable :=
  ⟨[⟨.Code, 1, 224, 2, 0, 16, ".code"⟩, ⟨.Bss, 6, 0, 16, 0, 8, ".bss"⟩]⟩

def sampleHeader : PaxHeader :=
  { PaxHeader.new .X86_64 with section_table_offset := 96, section_count := 2 }

/-- The same header with another signature. -/
def sampleSigned : PaxHeader :=
  { sampleHeader with pq_signature_placeholder := Vector.replicate 32 7 }

/-- Two signatures of one image: its stream leaves them out. -/
theorem content_hash_preimage_injective_sample :
    (canonicalContent sampleHeader sampleTable [[0x90, 0xC3], [] ]).bytes =
        (canonicalContent sampleSigned sampleTable [[0x90, 0xC3], [] ]).bytes ∧
      sampleHeader.unsigned = sampleSigned.unsigned := by
  have hw : WellSized sampleHeader sampleTable [[0x90, 0xC3], [] ] := ⟨by decide, by decide⟩
  have hw' : WellSized sampleSigned sampleTable [[0x90, 0xC3], [] ] := ⟨by decide, by decide⟩
  have heq : (canonicalContent sampleHeader sampleTable [[0x90, 0xC3], [] ]).bytes =
      (canonicalContent sampleSigned sampleTable [[0x90, 0xC3], [] ]).bytes := by
    rw [canonicalContent_bytes, canonicalContent_bytes]
    rfl
  exact ⟨heq, ((content_hash_preimage_injective hw hw').1 heq).1⟩

end paideia_as_emitter_pax
