-- The base relocation table (`reloc.rs`): the writer sorts the relocations and opens a
-- block for each page, the reader walks the blocks; what the writer leaves behind for
-- each page, and what the reader makes of it.
import PaideiaAs.Lib.Buffer
import Mathlib.Data.Nat.Bitwise

namespace paideia_as_emitter_pe.reloc

open Buffer

/-! ## Relocations -/

def IMAGE_REL_BASED_ABSOLUTE : UInt16 := 0

def IMAGE_BASE_RELOCATION_SIZE : Nat := 12

structure Relocation where
  rva : UInt32
  typ : UInt16
  deriving DecidableEq

structure RelocSection where
  relocations : List Relocation
  deriving DecidableEq

namespace RelocSection

/-- A stable sort by the address. -/
def sorted_relocs (s : RelocSection) : List Relocation :=
  s.relocations.mergeSort fun a b => decide (a.rva ≤ b.rva)

end RelocSection

namespace Relocation

def page_rva (reloc : Relocation) : UInt32 := reloc.rva &&& ~~~0xFFF

/-- The type in the high 4 bits, the offset in the page in the low 12. -/
def entry (reloc : Relocation) : UInt16 :=
  reloc.typ <<< 12 ||| ((reloc.rva - reloc.page_rva).toUInt16 &&& 0x0FFF)

end Relocation

/-! ## The writer -/

/-- The variables of the writer's loop. -/
structure Writer where
  result : List UInt8
  current_page : Option UInt32
  block_start : Nat
  block_entry_count : Nat

/-- The end of a block: the padding, and the size into its header. The count is cut to
32 bits, the sums are checked. -/
def flush (w : Writer) : Outcome (List UInt8) := do
  let odd := w.block_entry_count % 2 = 1
  let result := if odd then w.result ++ u16 IMAGE_REL_BASED_ABSOLUTE else w.result
  let twice ← Checked.u32 (2 * (UInt32.ofNat w.block_entry_count).toNat)
  let size_of_block ← Checked.u32 (12 + twice.toNat)
  let size_of_block ← if odd then Checked.u32 (size_of_block.toNat + 2) else .ok size_of_block
  copyInto result (w.block_start + 4) (u32 size_of_block)

/-- The last block, if there is one. -/
def finish (w : Writer) : Outcome (List UInt8) :=
  match w.current_page with
  | some _ => flush w
  | none => .ok w.result

/-- Another page ends the block and begins the next one. -/
def turn_page (w : Writer) (page_rva : UInt32) : Outcome Writer :=
  if w.current_page ≠ some page_rva then do
    let result ← finish w
    let block_start := result.length
    let result ← copyInto (result ++ List.replicate IMAGE_BASE_RELOCATION_SIZE 0) block_start
      (u32 page_rva)
    .ok ⟨result, some page_rva, block_start, 0⟩
  else .ok w

def Writer.push (w : Writer) (reloc : Relocation) : Writer :=
  { w with
    result := w.result ++ u16 reloc.entry
    block_entry_count := w.block_entry_count + 1 }

def write_reloc (w : Writer) (reloc : Relocation) : Outcome Writer := do
  let w ← turn_page w reloc.page_rva
  .ok (w.push reloc)

def to_bytes (s : RelocSection) : Outcome (List UInt8) :=
  if s.relocations.isEmpty then .ok []
  else do
    let w ← s.sorted_relocs.foldlM write_reloc ⟨[], none, 0, 0⟩
    finish w

/-- The entries from `i` on, `n` of them. Padding is skipped, and the address is a
checked sum. -/
def read_entries (b : List UInt8) (virtual_address : UInt32) (entries_start : Nat) :
    Nat → Nat → List Relocation → Outcome (List Relocation)
  | _, 0, relocations => .ok relocations
  | i, n + 1, relocations => do
    let entry ← readU16 b (entries_start + i * 2)
    let typ := entry >>> 12
    let offset12 := entry &&& 0x0FFF
    if typ = IMAGE_REL_BASED_ABSOLUTE then
      read_entries b virtual_address entries_start (i + 1) n relocations
    else do
      let rva ← Checked.u32 (virtual_address.toNat + offset12.toNat)
      read_entries b virtual_address entries_start (i + 1) n (relocations ++ [⟨rva, typ⟩])

def read_blocks (b : List UInt8) (offset : Nat) (relocations : List Relocation) :
    Outcome (Option RelocSection) :=
  if offset < b.length then
    if offset + IMAGE_BASE_RELOCATION_SIZE > b.length then .ok none
    else do
      let virtual_address ← readU32 b offset
      let size_of_block ← readU32 b (offset + 4)
      if size_of_block < 12 then .ok none
      else if (size_of_block - 12) % 2 ≠ 0 then .ok none
      else if offset + size_of_block.toNat > b.length then .ok none
      else do
        let entry_count := (size_of_block - 12) / 2
        let relocations ← read_entries b virtual_address (offset + IMAGE_BASE_RELOCATION_SIZE) 0
          entry_count.toNat relocations
        read_blocks b (offset + size_of_block.toNat) relocations
  else .ok (some ⟨relocations⟩)
termination_by b.length - offset
decreasing_by
  rename_i hsize _ _
  have hle : (12 : UInt32).toNat ≤ size_of_block.toNat :=
    UInt32.le_iff_toNat_le.mp (UInt32.not_lt.mp hsize)
  have h12 : (12 : UInt32).toNat = 12 := rfl
  omega

def from_bytes (b : List UInt8) : Outcome (Option RelocSection) := read_blocks b 0 []

end paideia_as_emitter_pe.reloc

namespace paideia_as_emitter_pe.reloc

open Buffer Bytes
open Outcome (ok_bind)
open List (append_assoc length_append replicate)
open UInt32 (ofNat)

/-! ## Words -/

theorem and_high (x : Nat) (hx : x < 2 ^ 32) : x &&& 0xFFFFF000 = x / 4096 * 4096 := by
  have hmask : 0xFFFFF000 = (2 ^ 20 - 1) <<< 12 := by decide
  have hshift : x / 4096 * 4096 = (x >>> 12) <<< 12 := by
    rw [Nat.shiftRight_eq_div_pow, Nat.shiftLeft_eq]
  rw [hmask, hshift]
  apply Nat.eq_of_testBit_eq
  intro i
  rw [Nat.testBit_and, Nat.testBit_shiftLeft, Nat.testBit_shiftLeft, Nat.testBit_two_pow_sub_one,
    Nat.testBit_shiftRight]
  by_cases hi : 12 ≤ i
  · have hback : 12 + (i - 12) = i := by omega
    rw [hback]
    by_cases hlow : i - 12 < 20
    · simp [hi, hlow]
    · have hbit : x.testBit i = false :=
        Nat.testBit_lt_two_pow (lt_of_lt_of_le hx (Nat.pow_le_pow_right (by omega) (by omega)))
      simp [hbit]
  · simp [hi]

theorem page_rva_toNat (reloc : Relocation) :
    reloc.page_rva.toNat = reloc.rva.toNat / 4096 * 4096 := by
  unfold Relocation.page_rva
  rw [UInt32.toNat_and]
  exact and_high _ reloc.rva.toNat_lt

theorem offset_toNat (reloc : Relocation) :
    ((reloc.rva - reloc.page_rva).toUInt16 &&& 0x0FFF).toNat = reloc.rva.toNat % 4096 := by
  have hpage := page_rva_toNat reloc
  have hle : reloc.page_rva ≤ reloc.rva := by
    rw [UInt32.le_iff_toNat_le]
    omega
  have hmask : (0x0FFF : UInt16).toNat = 2 ^ 12 - 1 := rfl
  rw [UInt16.toNat_and, UInt32.toNat_toUInt16, UInt32.toNat_sub_of_le _ _ hle, hpage, hmask,
    Nat.and_two_pow_sub_one_eq_mod]
  omega

theorem entry_toNat {reloc : Relocation} (htyp : reloc.typ < 16) :
    reloc.entry.toNat = reloc.typ.toNat * 4096 + reloc.rva.toNat % 4096 := by
  have htyp : reloc.typ.toNat < 16 := UInt16.lt_iff_toNat_lt.mp htyp
  have hlow : reloc.rva.toNat % 4096 < 2 ^ 12 := Nat.mod_lt _ (by decide)
  have hshift : (reloc.typ <<< 12).toNat = reloc.typ.toNat <<< 12 := by
    rw [UInt16.toNat_shiftLeft]
    apply Nat.mod_eq_of_lt
    rw [Nat.shiftLeft_eq]
    have h12 : (12 : UInt16).toNat % 16 = 12 := rfl
    rw [h12]
    omega
  unfold Relocation.entry
  rw [UInt16.toNat_or, offset_toNat, hshift, ← Nat.shiftLeft_add_eq_or_of_lt hlow, Nat.shiftLeft_eq]

theorem entry_typ {reloc : Relocation} (htyp : reloc.typ < 16) : reloc.entry >>> 12 = reloc.typ := by
  have htyp' : reloc.typ.toNat < 16 := UInt16.lt_iff_toNat_lt.mp htyp
  have h12 : (12 : UInt16).toNat % 16 = 12 := rfl
  rw [← UInt16.toNat_inj, UInt16.toNat_shiftRight, entry_toNat htyp, h12, Nat.shiftRight_eq_div_pow]
  omega

theorem entry_offset {reloc : Relocation} (htyp : reloc.typ < 16) :
    (reloc.entry &&& 0x0FFF).toNat = reloc.rva.toNat % 4096 := by
  have hmask : (0x0FFF : UInt16).toNat = 2 ^ 12 - 1 := rfl
  rw [UInt16.toNat_and, entry_toNat htyp, hmask, Nat.and_two_pow_sub_one_eq_mod]
  omega

/-! ## Blocks -/

/-- A page with its relocations. -/
abbrev PageBlock := UInt32 × List Relocation

/-- The size of a block with `n` entries: the header, the entries and the padding. -/
def blockSize (n : Nat) : Nat := 12 + 2 * n + 2 * (n % 2)

def entryBytes (relocs : List Relocation) : List UInt8 := relocs.flatMap fun reloc => u16 reloc.entry

def padding (n : Nat) : List UInt8 := if n % 2 = 1 then u16 IMAGE_REL_BASED_ABSOLUTE else []

def blockBytes (blk : PageBlock) : List UInt8 :=
  u32 blk.1 ++ (u32 (ofNat (blockSize blk.2.length)) ++ (replicate 4 0 ++
    (entryBytes blk.2 ++ padding blk.2.length)))

@[simp] theorem length_entryBytes (relocs : List Relocation) :
    (entryBytes relocs).length = 2 * relocs.length := by
  unfold entryBytes
  induction relocs with
  | nil => rfl
  | cons reloc relocs ih =>
    rw [List.flatMap_cons, length_append, ih, length_u16, List.length_cons]
    omega

@[simp] theorem length_padding (n : Nat) : (padding n).length = 2 * (n % 2) := by
  unfold padding
  split
  · rename_i h
    rw [h]
    rfl
  · rename_i h
    have : n % 2 = 0 := by omega
    rw [this]
    rfl

@[simp] theorem length_blockBytes (blk : PageBlock) :
    (blockBytes blk).length = blockSize blk.2.length := by
  unfold blockBytes blockSize
  simp only [length_append, length_u32, List.length_replicate, length_entryBytes, length_padding]
  omega

/-- The relocations that are left, with the block that is open. -/
def blocksFrom (blk : PageBlock) : List Relocation → List PageBlock
  | [] => [blk]
  | reloc :: rest =>
    if reloc.page_rva = blk.1 then blocksFrom (blk.1, blk.2 ++ [reloc]) rest
    else blk :: blocksFrom (reloc.page_rva, [reloc]) rest

def blocks : List Relocation → List PageBlock
  | [] => []
  | reloc :: rest => blocksFrom (reloc.page_rva, [reloc]) rest

/-! ## What the writer leaves -/

def openBytes (blk : PageBlock) : List UInt8 :=
  u32 blk.1 ++ (replicate 8 0 ++ entryBytes blk.2)

/-- The writer in the middle of a block. -/
def writerAt (done : List UInt8) (blk : PageBlock) : Writer :=
  ⟨done ++ openBytes blk, some blk.1, done.length, blk.2.length⟩

/-- The block is small enough for the size in its header. -/
def Fits (blk : PageBlock) : Prop := blockSize blk.2.length < 2 ^ 32

variable {done : List UInt8} {blk : PageBlock} {reloc : Relocation}

theorem copyInto_append {front old back field : List UInt8} {pos : Nat} (hpos : pos = front.length)
    (hlen : field.length = old.length) :
    copyInto (front ++ (old ++ back)) pos field = .ok (front ++ (field ++ back)) := by
  unfold copyInto
  rw [if_pos (by simp only [length_append]; omega), hpos, ← append_assoc,
    patch_append _ _ _ _ hlen, append_assoc]

theorem flush_writerAt (hfit : Fits blk) :
    flush (writerAt done blk) = .ok (done ++ blockBytes blk) := by
  unfold Fits blockSize at hfit
  have hcount : (ofNat blk.2.length).toNat = blk.2.length := Checked.toNat_ofNat (by omega)
  have htwice : Checked.u32 (2 * blk.2.length) = .ok (ofNat (2 * blk.2.length)) :=
    Checked.u32_of_lt (by omega)
  have hsize : Checked.u32 (12 + 2 * blk.2.length) = .ok (ofNat (12 + 2 * blk.2.length)) :=
    Checked.u32_of_lt (by omega)
  have hcopy : ∀ pad, copyInto (done ++ openBytes blk ++ pad) (done.length + 4)
      (u32 (ofNat (blockSize blk.2.length))) =
        .ok (done ++ (u32 blk.1 ++ (u32 (ofNat (blockSize blk.2.length)) ++
          (replicate 4 0 ++ (entryBytes blk.2 ++ pad))))) := by
    intro pad
    have hopen : done ++ openBytes blk ++ pad = (done ++ u32 blk.1) ++ (replicate 4 0 ++
        (replicate 4 0 ++ (entryBytes blk.2 ++ pad))) := by
      have hzeros : replicate 8 (0 : UInt8) = replicate 4 0 ++ replicate 4 0 := rfl
      unfold openBytes
      rw [hzeros]
      simp only [append_assoc]
    rw [hopen, copyInto_append (by simp) (by simp)]
    simp only [append_assoc]
  unfold flush writerAt blockBytes padding
  dsimp only
  rw [hcount, htwice, ok_bind, Checked.toNat_ofNat (by omega), hsize, ok_bind]
  split
  · rename_i hodd
    have hround : 12 + 2 * blk.2.length + 2 = blockSize blk.2.length := by
      unfold blockSize
      rw [hodd]
    rw [Checked.toNat_ofNat (by omega), hround, Checked.u32_of_lt (by omega), ok_bind]
    exact hcopy _
  · rename_i heven
    have hround : 12 + 2 * blk.2.length = blockSize blk.2.length := by
      unfold blockSize
      omega
    rw [ok_bind, hround]
    have := hcopy []
    rwa [List.append_nil] at this

theorem finish_writerAt (hfit : Fits blk) :
    finish (writerAt done blk) = .ok (done ++ blockBytes blk) := flush_writerAt hfit

/-- An entry at the end of the open block. -/
theorem push_writerAt (reloc : Relocation) :
    (writerAt done blk).push reloc = writerAt done (blk.1, blk.2 ++ [reloc]) := by
  unfold Writer.push writerAt openBytes entryBytes
  simp

theorem write_reloc_same (h : reloc.page_rva = blk.1) :
    write_reloc (writerAt done blk) reloc = .ok (writerAt done (blk.1, blk.2 ++ [reloc])) := by
  have hsame : turn_page (writerAt done blk) reloc.page_rva = .ok (writerAt done blk) :=
    if_neg (not_not.mpr (congrArg some h.symm))
  unfold write_reloc
  rw [hsame, ok_bind, push_writerAt]

theorem write_reloc_turn {w : Writer} (hpage : w.current_page ≠ some reloc.page_rva)
    (h : finish w = .ok done) :
    write_reloc w reloc = .ok (writerAt done (reloc.page_rva, [reloc])) := by
  have hzeros : replicate IMAGE_BASE_RELOCATION_SIZE (0 : UInt8)
      = replicate 4 0 ++ replicate 8 0 := rfl
  have hturn : turn_page w reloc.page_rva = .ok (writerAt done (reloc.page_rva, [])) := by
    unfold turn_page
    rw [if_pos hpage, h, ok_bind]
    dsimp only
    rw [hzeros, copyInto_append rfl (by simp), ok_bind]
    unfold writerAt openBytes entryBytes
    rw [List.flatMap_nil, List.append_nil]
    rfl
  unfold write_reloc
  rw [hturn, ok_bind, push_writerAt]
  rfl

/-- The loop, from the middle of a block on. -/
theorem write_relocs (rest : List Relocation) : ∀ {done : List UInt8} {blk : PageBlock},
    (∀ b ∈ blocksFrom blk rest, Fits b) →
      (do let w ← rest.foldlM write_reloc (writerAt done blk); finish w)
        = .ok (done ++ (blocksFrom blk rest).flatMap blockBytes) := by
  induction rest with
  | nil =>
    intro done blk hfit
    rw [blocksFrom, List.flatMap_singleton]
    exact finish_writerAt (hfit blk (List.mem_singleton_self blk))
  | cons reloc rest ih =>
    intro done blk hfit
    rw [List.foldlM_cons, blocksFrom] at *
    split at hfit
    · rename_i hpage
      rw [if_pos hpage, write_reloc_same hpage, ok_bind]
      exact ih hfit
    · rename_i hpage
      rw [List.forall_mem_cons] at hfit
      have hturn : (writerAt done blk).current_page ≠ some reloc.page_rva :=
        fun heq => hpage (Option.some.inj heq).symm
      rw [if_neg hpage, write_reloc_turn hturn (finish_writerAt hfit.1), ok_bind, ih hfit.2,
        List.flatMap_cons, append_assoc]

/-- The writer leaves block after block. -/
theorem to_bytes_eq {s : RelocSection} (hfit : ∀ b ∈ blocks s.sorted_relocs, Fits b) :
    to_bytes s = .ok ((blocks s.sorted_relocs).flatMap blockBytes) := by
  have hperm : s.sorted_relocs.Perm s.relocations := List.mergeSort_perm ..
  unfold to_bytes
  cases hsorted : s.sorted_relocs with
  | nil =>
    rw [hsorted] at hperm
    rw [List.nil_perm.mp hperm]
    rfl
  | cons reloc rest =>
    rw [hsorted] at hfit hperm
    have hne : s.relocations.isEmpty = false := by
      cases hs : s.relocations with
      | nil =>
        rw [hs] at hperm
        exact absurd hperm.eq_nil (List.cons_ne_nil _ _)
      | cons r rs => rfl
    have hfirst : write_reloc ⟨[], none, 0, 0⟩ reloc
        = .ok (writerAt [] (reloc.page_rva, [reloc])) :=
      write_reloc_turn (fun h => by cases h) rfl
    rw [hne, if_neg Bool.false_ne_true, List.foldlM_cons, hfirst, ok_bind]
    exact write_relocs rest hfit

end paideia_as_emitter_pe.reloc
