-- The relocation table read back, and the byte strings that the reader gets through.
import PaideiaAs.EmitterPe.Reloc

namespace paideia_as_emitter_pe.reloc

open Buffer
open List (append_assoc append_nil cons_ne_nil flatMap_cons length_append mem_cons mem_singleton
  pairwise_cons)
open Outcome (ok_bind)

/-! ## One block -/

/-- At the offset the bytes hold a block that the reader accepts. -/
structure WholeBlock (b : List UInt8) (offset size : Nat) : Prop where
  header : offset + 12 ≤ b.length
  field : (u32At b (offset + 4)).toNat = size
  large : 12 ≤ size
  even : (size - 12) % 2 = 0
  inside : offset + size ≤ b.length

variable {b : List UInt8} {offset size : Nat} {relocations : List Relocation}

theorem sub_12_toNat {size : UInt32} (h : ¬ size < 12) : (size - 12).toNat = size.toNat - 12 :=
  UInt32.toNat_sub_of_le _ _ (UInt32.not_lt.mp h)

theorem not_lt_12 {size : UInt32} : ¬ size < 12 ↔ 12 ≤ size.toNat := by
  have h12 : (12 : UInt32).toNat = 12 := rfl
  rw [UInt32.lt_iff_toNat_lt, h12]
  omega

theorem mod_2_eq {x : UInt32} : x % 2 = 0 ↔ x.toNat % 2 = 0 := by
  have h2 : (2 : UInt32).toNat = 2 := rfl
  have h0 : (0 : UInt32).toNat = 0 := rfl
  rw [← UInt32.toNat_inj, UInt32.toNat_mod, h2, h0]

theorem read_blocks_end (h : b.length ≤ offset) :
    read_blocks b offset relocations = .ok (some ⟨relocations⟩) := by
  rw [read_blocks, if_neg (Nat.not_lt.mpr h)]

theorem read_blocks_whole (h : WholeBlock b offset size) : read_blocks b offset relocations = (do
      let relocations ← read_entries b (u32At b offset) (offset + 12) 0 ((size - 12) / 2) relocations
      read_blocks b (offset + size) relocations) := by
  have hheader := h.header
  have hlarge : ¬ u32At b (offset + 4) < 12 := not_lt_12.mpr (h.field ▸ h.large)
  have hsub : (u32At b (offset + 4) - 12).toNat = size - 12 := h.field ▸ sub_12_toNat hlarge
  have heven : (u32At b (offset + 4) - 12) % 2 = 0 := mod_2_eq.mpr (hsub ▸ h.even)
  have hinside := h.inside
  have hcount : ((u32At b (offset + 4) - 12) / 2).toNat = (size - 12) / 2 := by
    rw [UInt32.toNat_div, hsub]
    rfl
  rw [read_blocks, if_pos (by omega), if_neg (by unfold IMAGE_BASE_RELOCATION_SIZE; omega),
    readU32_eq (by omega), ok_bind, readU32_eq (by omega), ok_bind, if_neg hlarge,
    if_neg (not_not.mpr heven), if_neg (by rw [h.field]; omega)]
  dsimp only
  rw [hcount, h.field]
  rfl

/-- Anything else ends the walk. -/
theorem read_blocks_stop (hlt : offset < b.length) (h : ∀ size, ¬ WholeBlock b offset size) :
    read_blocks b offset relocations = .ok none := by
  rw [read_blocks, if_pos hlt]
  split
  · rfl
  · rename_i hheader
    unfold IMAGE_BASE_RELOCATION_SIZE at hheader
    rw [readU32_eq (by omega), ok_bind, readU32_eq (by omega), ok_bind]
    split
    · rfl
    · rename_i hlarge
      split
      · rfl
      · rename_i heven
        split
        · rfl
        · rename_i hinside
          rw [not_not, mod_2_eq, sub_12_toNat hlarge] at heven
          exact absurd ⟨by omega, rfl, not_lt_12.mp hlarge, heven, by omega⟩ (h _)

/-! ## The way back -/

/-- The page and the types of a block's relocations. -/
structure Sound (blk : PageBlock) : Prop where
  page : ∀ reloc ∈ blk.2, reloc.page_rva = blk.1
  typ : ∀ reloc ∈ blk.2, 1 ≤ reloc.typ ∧ reloc.typ < 16

variable {start : Nat}

theorem read_entry {reloc : Relocation} {front back : List UInt8} {i n : Nat}
    (hpos : start + i * 2 = front.length) (htyp : 1 ≤ reloc.typ ∧ reloc.typ < 16) :
    read_entries (front ++ (u16 reloc.entry ++ back)) reloc.page_rva start i (n + 1) relocations
      = read_entries (front ++ (u16 reloc.entry ++ back)) reloc.page_rva start (i + 1) n
          (relocations ++ [reloc]) := by
  have hread : readU16 (front ++ (u16 reloc.entry ++ back)) (start + i * 2) = .ok reloc.entry := by
    rw [readU16_eq (by simp; omega), u16At_u16 hpos]
  have htyp0 : ¬ reloc.entry >>> 12 = IMAGE_REL_BASED_ABSOLUTE := by
    rw [entry_typ htyp.2]
    intro h
    rw [h] at htyp
    exact absurd htyp.1 (by decide)
  have hsum : reloc.page_rva.toNat + (reloc.entry &&& 0x0FFF).toNat = reloc.rva.toNat := by
    rw [page_rva_toNat, entry_offset htyp.2]
    omega
  rw [read_entries, hread, ok_bind]
  dsimp only
  rw [if_neg htyp0, hsum, Checked.u32_of_lt reloc.rva.toNat_lt, ok_bind, entry_typ htyp.2,
    UInt32.ofNat_toNat]

theorem read_entries_block {page : UInt32} {n : Nat} (relocs : List Relocation) :
    ∀ {front back : List UInt8} {i : Nat} {relocations : List Relocation},
      Sound (page, relocs) → start + i * 2 = front.length →
      read_entries (front ++ (entryBytes relocs ++ back)) page start i (relocs.length + n) relocations
        = read_entries (front ++ (entryBytes relocs ++ back)) page start (i + relocs.length) n
            (relocations ++ relocs) := by
  induction relocs with
  | nil =>
    intro front back i relocations _ _
    rw [List.length_nil, Nat.zero_add, append_nil]
    rfl
  | cons reloc relocs ih =>
    intro front back i relocations hsound hpos
    have hbytes : front ++ (entryBytes (reloc :: relocs) ++ back)
        = front ++ (u16 reloc.entry ++ (entryBytes relocs ++ back)) := by
      unfold entryBytes
      rw [flatMap_cons, append_assoc]
    have hassoc : front ++ (u16 reloc.entry ++ (entryBytes relocs ++ back))
        = (front ++ u16 reloc.entry) ++ (entryBytes relocs ++ back) := (append_assoc ..).symm
    have hpage : reloc.page_rva = page := hsound.page reloc (.head _)
    have hrest : Sound (page, relocs) :=
      ⟨fun r hr => hsound.page r (.tail _ hr), fun r hr => hsound.typ r (.tail _ hr)⟩
    have hcount : (reloc :: relocs).length + n = (relocs.length + n) + 1 := by
      rw [List.length_cons]
      omega
    rw [hbytes, hcount, ← hpage, read_entry hpos (hsound.typ reloc List.mem_cons_self), hassoc, hpage,
      ih hrest (by simp; omega), append_assoc relocations, List.length_cons]
    congr 1
    omega

theorem read_padding {front back : List UInt8} {page : UInt32} {i : Nat} (n : Nat)
    (hpos : start + i * 2 = front.length) :
    read_entries (front ++ (padding n ++ back)) page start i (n % 2) relocations = .ok relocations := by
  unfold padding
  split
  · rename_i hodd
    rw [hodd, read_entries, readU16_eq (by simp; omega), u16At_u16 hpos, ok_bind]
    exact if_pos rfl
  · rename_i heven
    have hzero : n % 2 = 0 := by omega
    rw [hzero]
    rfl

theorem wholeBlock_written {blk : PageBlock} (hfit : Fits blk) (front back : List UInt8) :
    WholeBlock (front ++ (blockBytes blk ++ back)) front.length (blockSize blk.2.length) := by
  have hlen : (front ++ (blockBytes blk ++ back)).length
      = front.length + blockSize blk.2.length + back.length := by
    rw [length_append, length_append, length_blockBytes]
    omega
  have hlarge : 12 ≤ blockSize blk.2.length := by
    unfold blockSize
    omega
  refine ⟨by omega, ?_, hlarge, ?_, by omega⟩
  · have hbytes : front ++ (blockBytes blk ++ back) = (front ++ u32 blk.1) ++
        (u32 (UInt32.ofNat (blockSize blk.2.length)) ++ (List.replicate 4 0 ++
          (entryBytes blk.2 ++ padding blk.2.length) ++ back)) := by
      unfold blockBytes
      simp only [append_assoc]
    rw [hbytes, u32At_u32 (by simp), Checked.toNat_ofNat hfit]
  · unfold blockSize
    omega

theorem read_block {blk : PageBlock} (hfit : Fits blk) (hsound : Sound blk)
    (front back : List UInt8) :
    read_blocks (front ++ (blockBytes blk ++ back)) front.length relocations
      = read_blocks ((front ++ blockBytes blk) ++ back) (front ++ blockBytes blk).length
          (relocations ++ blk.2) := by
  have hpage : u32At (front ++ (blockBytes blk ++ back)) front.length = blk.1 := by
    unfold blockBytes
    rw [append_assoc (u32 blk.1)]
    exact u32At_u32 rfl _ _
  have hcount : (blockSize blk.2.length - 12) / 2 = blk.2.length + blk.2.length % 2 := by
    unfold blockSize
    omega
  have hentries : front ++ (blockBytes blk ++ back)
      = (front ++ (u32 blk.1 ++ (u32 (UInt32.ofNat (blockSize blk.2.length)) ++
          List.replicate 4 0))) ++ (entryBytes blk.2 ++ (padding blk.2.length ++ back)) := by
    unfold blockBytes
    simp only [append_assoc]
  have hpadding : ∀ front' : List UInt8, front' ++ (entryBytes blk.2 ++ (padding blk.2.length ++ back))
      = (front' ++ entryBytes blk.2) ++ (padding blk.2.length ++ back) :=
    fun front' => (append_assoc ..).symm
  have hread : read_entries (front ++ (blockBytes blk ++ back)) blk.1 (front.length + 12) 0
      (blk.2.length + blk.2.length % 2) relocations = .ok (relocations ++ blk.2) := by
    rw [hentries, read_entries_block blk.2 hsound (by simp), hpadding,
      read_padding _ (by simp; omega)]
  rw [read_blocks_whole (wholeBlock_written hfit front back), hpage, hcount, hread, ok_bind,
    append_assoc front, length_append, length_blockBytes]

theorem read_written (blks : List PageBlock) : ∀ {front : List UInt8} {relocations : List Relocation},
    (∀ blk ∈ blks, Fits blk ∧ Sound blk) →
      read_blocks (front ++ blks.flatMap blockBytes) front.length relocations
        = .ok (some ⟨relocations ++ blks.flatMap (·.2)⟩) := by
  induction blks with
  | nil =>
    intro front relocations _
    rw [List.flatMap_nil, List.flatMap_nil, append_nil, append_nil]
    exact read_blocks_end (Nat.le_refl _)
  | cons blk blks ih =>
    intro front relocations hall
    rw [List.forall_mem_cons] at hall
    rw [flatMap_cons, flatMap_cons, read_block hall.1.1 hall.1.2, ih hall.2, append_assoc]

/-! ## The blocks of a table -/

variable {blk : PageBlock} {rest relocs : List Relocation}

theorem blocksFrom_relocs (rest : List Relocation) : ∀ blk : PageBlock,
    (blocksFrom blk rest).flatMap (·.2) = blk.2 ++ rest := by
  induction rest with
  | nil =>
    intro blk
    rw [blocksFrom, List.flatMap_singleton, append_nil]
  | cons reloc rest ih =>
    intro blk
    rw [blocksFrom]
    split
    · rw [ih, append_assoc]
      rfl
    · rw [flatMap_cons, ih]
      rfl

/-- A block is not empty, and its relocations are those of its page. -/
structure OfPage (blk : PageBlock) : Prop where
  some : blk.2 ≠ []
  page : ∀ reloc ∈ blk.2, reloc.page_rva = blk.1

theorem blocksFrom_page (rest : List Relocation) : ∀ {blk : PageBlock}, OfPage blk →
    ∀ b ∈ blocksFrom blk rest, OfPage b := by
  induction rest with
  | nil =>
    intro blk h b hb
    rw [mem_singleton.mp hb]
    exact h
  | cons reloc rest ih =>
    intro blk h b hb
    rw [blocksFrom] at hb
    split at hb
    · rename_i hpage
      refine ih ⟨?_, ?_⟩ b hb
      · exact List.append_ne_nil_of_right_ne_nil _ (cons_ne_nil _ _)
      · intro r hr
        rcases List.mem_append.mp hr with hr | hr
        · exact h.page r hr
        · rw [mem_singleton.mp hr]
          exact hpage
    · rcases mem_cons.mp hb with rfl | hb
      · exact h
      · refine ih ⟨cons_ne_nil _ _, ?_⟩ b hb
        intro r hr
        rw [mem_singleton.mp hr]

theorem page_rva_mono {a c : Relocation} (h : a.rva ≤ c.rva) : a.page_rva ≤ c.page_rva := by
  rw [UInt32.le_iff_toNat_le] at h ⊢
  rw [page_rva_toNat, page_rva_toNat]
  exact Nat.mul_le_mul_right _ (Nat.div_le_div_right h)

/-- The pages of sorted relocations go up. -/
theorem blocksFrom_ascending (rest : List Relocation) : ∀ {blk : PageBlock},
    (∀ reloc ∈ rest, blk.1 ≤ reloc.page_rva) → rest.Pairwise (fun a b => a.rva ≤ b.rva) →
      (blocksFrom blk rest).Pairwise (fun a b => a.1 < b.1) ∧
        ∀ b ∈ blocksFrom blk rest, blk.1 ≤ b.1 := by
  induction rest with
  | nil =>
    intro blk _ _
    refine ⟨List.pairwise_singleton _ _, ?_⟩
    intro b hb
    rw [mem_singleton.mp hb]
    exact UInt32.le_refl _
  | cons reloc rest ih =>
    intro blk hle hsorted
    obtain ⟨hreloc, hsorted⟩ := pairwise_cons.mp hsorted
    rw [List.forall_mem_cons] at hle
    rw [blocksFrom]
    split
    · exact @ih (blk.1, blk.2 ++ [reloc]) hle.2 hsorted
    · rename_i hpage
      have hup : blk.1 < reloc.page_rva := UInt32.lt_of_le_of_ne hle.1 (Ne.symm hpage)
      obtain ⟨hasc, hge⟩ := @ih (reloc.page_rva, [reloc])
        (fun r hr => page_rva_mono (hreloc r hr)) hsorted
      refine ⟨pairwise_cons.mpr ⟨fun b hb => UInt32.lt_of_lt_of_le hup (hge b hb), hasc⟩, ?_⟩
      intro b hb
      rcases mem_cons.mp hb with rfl | hb
      · exact UInt32.le_refl _
      · exact UInt32.le_trans (UInt32.le_of_lt hup) (hge b hb)

/-! ## Whole tables -/

/-- The blocks tile the output: they are the sorted relocations page after page, and the
size in each header is that of the header, the entries and the padding. -/
structure Tiles (relocs : List Relocation) (bytes : List UInt8) (blks : List PageBlock) : Prop where
  bytes : bytes = blks.flatMap blockBytes
  relocs : blks.flatMap (·.2) = relocs
  page : ∀ blk ∈ blks, OfPage blk
  ascending : blks.Pairwise fun a b => a.1 < b.1
  size : ∀ blk ∈ blks, (u32At (blockBytes blk) 4).toNat = (blockBytes blk).length ∧
    4 ∣ (blockBytes blk).length

/-- The table is written in blocks, and is read back sorted. -/
def RoundTrips (s : RelocSection) : Prop :=
  ∃ bytes, to_bytes s = .ok bytes ∧ (∃ blks, Tiles s.sorted_relocs bytes blks) ∧
    from_bytes bytes = .ok (some ⟨s.sorted_relocs⟩)

/-- No page has more relocations than the size of a block can say. -/
def PagesFit (s : RelocSection) : Prop :=
  ∀ page, blockSize (s.relocations.filter fun reloc => reloc.page_rva = page).length < 2 ^ 32

variable (s : RelocSection)

theorem sorted_perm : s.sorted_relocs.Perm s.relocations :=
  List.mergeSort_perm ..

theorem sorted_pairwise : s.sorted_relocs.Pairwise fun a b => a.rva ≤ b.rva := by
  have h := @List.pairwise_mergeSort Relocation (fun a b => decide (a.rva ≤ b.rva))
    (fun a b c hab hbc => by
      rw [decide_eq_true_eq] at hab hbc ⊢
      exact UInt32.le_trans hab hbc)
    (fun a b => by
      rw [Bool.or_eq_true, decide_eq_true_eq, decide_eq_true_eq]
      exact UInt32.le_total _ _) s.relocations
  exact h.imp fun hab => of_decide_eq_true hab

theorem length_page (page : UInt32) :
    (s.sorted_relocs.filter fun reloc => reloc.page_rva = page).length
      = (s.relocations.filter fun reloc => reloc.page_rva = page).length :=
  ((sorted_perm s).filter _).length_eq

theorem filter_page {blks : List PageBlock} (hpage : ∀ b ∈ blks, OfPage b)
    (hasc : blks.Pairwise fun a b => a.1 < b.1) (hblk : blk ∈ blks) :
    (blks.flatMap (·.2)).filter (fun reloc => reloc.page_rva = blk.1) = blk.2 := by
  have hfilter : ∀ b ∈ blks, b.2.filter (fun reloc => reloc.page_rva = blk.1)
      = if b.1 = blk.1 then b.2 else [] := by
    intro b hb
    split
    · rename_i heq
      apply List.filter_eq_self.mpr
      intro r hr
      rw [(hpage b hb).page r hr, heq]
      exact decide_eq_true rfl
    · rename_i hne
      apply List.filter_eq_nil_iff.mpr
      intro r hr
      rw [(hpage b hb).page r hr]
      simpa using hne
  rw [List.filter_flatMap, List.flatMap_congr hfilter]
  clear hfilter hpage
  induction blks with
  | nil => cases hblk
  | cons b blks ih =>
    obtain ⟨hlt, hasc⟩ := pairwise_cons.mp hasc
    rw [flatMap_cons]
    rcases mem_cons.mp hblk with rfl | hblk
    · rw [if_pos rfl, List.flatMap_eq_nil_iff.mpr, append_nil]
      intro c hc
      exact if_neg (UInt32.ne_of_lt (hlt c hc)).symm
    · rw [if_neg (UInt32.ne_of_lt (hlt blk hblk)), ih hasc hblk]
      rfl

theorem blocks_tile (hsorted : relocs.Pairwise fun a b => a.rva ≤ b.rva) :
    (blocks relocs).flatMap (·.2) = relocs ∧ (∀ b ∈ blocks relocs, OfPage b) ∧
      (blocks relocs).Pairwise fun a b => a.1 < b.1 := by
  cases relocs with
  | nil => exact ⟨rfl, fun b hb => absurd hb List.not_mem_nil, .nil⟩
  | cons reloc rest =>
    obtain ⟨hle, hsorted⟩ := pairwise_cons.mp hsorted
    refine ⟨blocksFrom_relocs rest _, blocksFrom_page rest ⟨cons_ne_nil _ _, ?_⟩, ?_⟩
    · intro r hr
      rw [mem_singleton.mp hr]
    · exact (blocksFrom_ascending rest (fun r hr => page_rva_mono (hle r hr)) hsorted).1

theorem u32At_blockBytes (blk : PageBlock) :
    u32At (blockBytes blk) 4 = UInt32.ofNat (blockSize blk.2.length) :=
  u32At_u32 (length_u32 blk.1).symm _ _

theorem roundTrips_iff {s : RelocSection}
    (htyp : ∀ reloc ∈ s.relocations, 1 ≤ reloc.typ ∧ reloc.typ < 16) :
    RoundTrips s ↔ PagesFit s := by
  obtain ⟨hrelocs, hpage, hasc⟩ := blocks_tile (sorted_pairwise s)
  constructor
  · rintro ⟨bytes, -, ⟨blks, htiles⟩, -⟩ page
    rw [← length_page, ← htiles.relocs]
    by_cases hmem : ∃ blk ∈ blks, blk.1 = page
    · obtain ⟨blk, hblk, rfl⟩ := hmem
      have hsize := (htiles.size blk hblk).1
      rw [filter_page htiles.page htiles.ascending hblk, ← length_blockBytes, ← hsize]
      exact UInt32.toNat_lt _
    · have hnone : (blks.flatMap (·.2)).filter (fun reloc => reloc.page_rva = page) = [] := by
        apply List.filter_eq_nil_iff.mpr
        intro r hr
        obtain ⟨blk, hblk, hr⟩ := List.mem_flatMap.mp hr
        rw [(htiles.page blk hblk).page r hr]
        simpa using fun heq => hmem ⟨blk, hblk, heq⟩
      rw [hnone]
      decide
  · intro hfits
    have hfit : ∀ blk ∈ blocks s.sorted_relocs, Fits blk := by
      intro blk hblk
      have := hfits blk.1
      rwa [← length_page, ← hrelocs, filter_page hpage hasc hblk] at this
    have hsound : ∀ blk ∈ blocks s.sorted_relocs, Fits blk ∧ Sound blk := by
      intro blk hblk
      refine ⟨hfit blk hblk, (hpage blk hblk).page, ?_⟩
      intro r hr
      have hin : r ∈ s.sorted_relocs := hrelocs ▸ List.mem_flatMap_of_mem hblk hr
      exact htyp r ((sorted_perm s).mem_iff.mp hin)
    refine ⟨_, to_bytes_eq hfit, ⟨blocks s.sorted_relocs, rfl, hrelocs, hpage, hasc, ?_⟩, ?_⟩
    · intro blk hblk
      rw [u32At_blockBytes, Checked.toNat_ofNat (hfit blk hblk), length_blockBytes]
      refine ⟨rfl, ?_⟩
      unfold blockSize
      omega
    · have hread := @read_written (blocks s.sorted_relocs) [] [] hsound
      rw [hrelocs] at hread
      exact hread

/-! ## Any bytes -/

/-- From the offset the reader comes to another one, block after block. -/
inductive Reaches (b : List UInt8) : Nat → Nat → Prop where
  | here (offset : Nat) : Reaches b offset offset
  | next {offset size offset' : Nat} (h : WholeBlock b offset size)
      (rest : Reaches b (offset + size) offset') : Reaches b offset offset'

/-- The address of every entry of the block that is no padding is a `u32`. -/
def EntriesFit (b : List UInt8) (offset size : Nat) : Prop :=
  ∀ i, i < (size - 12) / 2 →
    u16At b (offset + 12 + i * 2) >>> 12 ≠ IMAGE_REL_BASED_ABSOLUTE →
      (u32At b offset).toNat + (u16At b (offset + 12 + i * 2) &&& 0x0FFF).toNat < 2 ^ 32

/-- So it is in every block that the reader comes to. -/
def SumsFit (b : List UInt8) : Prop :=
  ∀ offset size, Reaches b 0 offset → WholeBlock b offset size → EntriesFit b offset size

/-- The reader ends, with `None` or `Some`. -/
def Reads (b : List UInt8) : Prop := ∃ r, from_bytes b = .ok r

theorem WholeBlock.unique {size' : Nat} (h : WholeBlock b offset size)
    (h' : WholeBlock b offset size') : size = size' :=
  h.field.symm.trans h'.field

theorem read_entries_isOk_iff {page : UInt32} {start : Nat} (n : Nat) :
    ∀ {i : Nat} {relocations : List Relocation}, start + (i + n) * 2 ≤ b.length →
      ((∃ r, read_entries b page start i n relocations = .ok r) ↔
        ∀ k, i ≤ k → k < i + n → u16At b (start + k * 2) >>> 12 ≠ IMAGE_REL_BASED_ABSOLUTE →
          page.toNat + (u16At b (start + k * 2) &&& 0x0FFF).toNat < 2 ^ 32) := by
  induction n with
  | zero =>
    intro i relocations _
    refine iff_of_true ⟨_, rfl⟩ ?_
    intro k hik hki
    omega
  | succ n ih =>
    intro i relocations hlen
    have hsplit : ∀ P : Nat → Prop,
        (∀ k, i ≤ k → k < i + (n + 1) → P k) ↔ P i ∧ ∀ k, i + 1 ≤ k → k < i + 1 + n → P k := by
      intro P
      constructor
      · intro h
        exact ⟨h i (Nat.le_refl i) (by omega), fun k hik hki => h k (by omega) (by omega)⟩
      · rintro ⟨hi, h⟩ k hik hki
        rcases Nat.eq_or_lt_of_le hik with rfl | hlt
        · exact hi
        · exact h k hlt (by omega)
    rw [hsplit, read_entries, readU16_eq (by omega), ok_bind]
    dsimp only
    split
    · rename_i hpad
      rw [ih (by omega)]
      exact (and_iff_right fun h => absurd hpad h).symm
    · rename_i htyp
      rw [forall_prop_of_true htyp]
      by_cases hsum : page.toNat + (u16At b (start + i * 2) &&& 0x0FFF).toNat < 2 ^ 32
      · rw [Checked.u32_of_lt hsum, ok_bind, ih (by omega)]
        exact (and_iff_right hsum).symm
      · refine iff_of_false ?_ fun h => hsum h.1
        unfold Checked.u32
        rw [if_neg hsum]
        rintro ⟨r, hr⟩
        cases hr

theorem read_blocks_isOk_iff (b : List UInt8) (offset : Nat) (relocations : List Relocation) :
    (∃ r, read_blocks b offset relocations = .ok r) ↔
      ∀ offset' size, Reaches b offset offset' → WholeBlock b offset' size →
        EntriesFit b offset' size := by
  induction hn : b.length - offset using Nat.strong_induction_on generalizing offset relocations with
  | _ n ih =>
    by_cases hlt : offset < b.length
    · by_cases hwhole : ∃ size, WholeBlock b offset size
      · obtain ⟨size, hwhole⟩ := hwhole
        have hlarge := hwhole.large
        have hinside := hwhole.inside
        have hentries := @read_entries_isOk_iff b (u32At b offset) (offset + 12) ((size - 12) / 2) 0
          relocations (by omega)
        have hhere : (∃ r, read_entries b (u32At b offset) (offset + 12) 0 ((size - 12) / 2)
            relocations = .ok r) ↔ EntriesFit b offset size := by
          rw [hentries, Nat.zero_add]
          exact forall_congr' fun k => forall_prop_of_true (Nat.zero_le k)
        have hrest : ∀ r, _ := fun r => ih (b.length - (offset + size)) (by omega) (offset + size) r rfl
        rw [read_blocks_whole hwhole]
        constructor
        · rintro ⟨r, hr⟩ offset' size' hreach hwhole'
          obtain ⟨relocs, hrelocs, hr⟩ := Outcome.bind_eq_ok.mp hr
          cases hreach with
          | here =>
            rw [hwhole'.unique hwhole]
            exact hhere.mp ⟨relocs, hrelocs⟩
          | next h hreach =>
            rw [h.unique hwhole] at hreach
            exact (hrest relocs).mp ⟨r, hr⟩ offset' size' hreach hwhole'
        · intro h
          obtain ⟨relocs, hrelocs⟩ := hhere.mpr (h offset size (.here offset) hwhole)
          rw [hrelocs, ok_bind]
          exact (hrest relocs).mpr fun offset' size' hreach => h offset' size' (.next hwhole hreach)
      · refine iff_of_true ⟨none, read_blocks_stop hlt fun size h => hwhole ⟨size, h⟩⟩ ?_
        intro offset' size' hreach hwhole'
        cases hreach with
        | here => exact absurd ⟨size', hwhole'⟩ hwhole
        | next h _ => exact absurd ⟨_, h⟩ hwhole
    · refine iff_of_true ⟨_, read_blocks_end (Nat.le_of_not_lt hlt)⟩ ?_
      intro offset' size' hreach hwhole'
      have hnot : ∀ size, ¬ WholeBlock b offset size := fun size h => by
        have := h.header
        omega
      cases hreach with
      | here => exact absurd hwhole' (hnot _)
      | next h _ => exact absurd h (hnot _)

/-- The writer and the reader round-trip where no page has too many relocations, and the
reader gets through where no address that it comes to leaves a `u32`. -/
theorem reloc_table_iff (b : List UInt8) :
    (∀ s : RelocSection, (∀ reloc ∈ s.relocations, 1 ≤ reloc.typ ∧ reloc.typ < 16) →
      (RoundTrips s ↔ PagesFit s)) ∧ (Reads b ↔ SumsFit b) :=
  ⟨fun _ htyp => roundTrips_iff htyp, read_blocks_isOk_iff b 0 []⟩

/-- A page at the end of the address space, and an entry of its second byte. -/
def pastTheEnd : List UInt8 := [0xFF, 0xFF, 0xFF, 0xFF, 14, 0, 0, 0, 0, 0, 0, 0, 0x01, 0xA0]

/-- Its address is not a `u32`. -/
theorem address_past_the_end :
    ¬ ((∀ s : RelocSection, (∀ reloc ∈ s.relocations, 1 ≤ reloc.typ ∧ reloc.typ < 16) →
      RoundTrips s) ∧ ∀ b : List UInt8, Reads b) := by
  intro h
  have hreads : Reads pastTheEnd := h.2 pastTheEnd
  have hwhole : WholeBlock pastTheEnd 0 14 := ⟨by decide, by decide, by decide, by decide, by decide⟩
  have hfit := (read_blocks_isOk_iff pastTheEnd 0 []).mp hreads 0 14 (.here 0) hwhole 0 (by decide)
    (by decide)
  revert hfit
  decide

end paideia_as_emitter_pe.reloc
