-- The contents of the linked image, read back by the linker's own parser. The
-- image carries the descriptors of the first input, so what is read back is
-- the merged content only where those descriptors fit the merged layout.
import PaideiaAs.Linker.Safety

namespace paideia_as_linker

open Buffer Bytes paideia_as_emitter_pax
open Except (ok)
open List (flatten_cons length length_eq_zero_iff mapM_cons map_cons map_map)
open ParsedPax (content section_content)
open Function (comp_def)

/-! ## The inputs and the image -/

/-- The section stores no content. -/
def noContent (s : Section) : Prop := s.flags &&& SectionFlag.BssNoContent.bits ≠ 0

instance (s : Section) : Decidable (noContent s) := inferInstanceAs (Decidable (_ ≠ _))

/-- An input that the parser accepts, with its stored sections in the file. -/
structure WellFormed (p : ParsedPax) : Prop where
  accepted : Accepts (p.path, .ok p.bytes) p
  stored : ∀ s ∈ p.section_table.sections, ¬ noContent s →
    s.content_offset.toNat + s.content_size.toNat ≤ p.bytes.length

/-- The tables have the same number of sections, of the same types and with the
same flags. -/
def SameShape (p q : ParsedPax) : Prop :=
  p.section_table.sections.map (fun s => (s.ty, s.flags)) =
    q.section_table.sections.map (fun s => (s.ty, s.flags))

/-- The content of section `i` in all the relocated inputs, in their order;
a section without stored content contributes nothing. -/
def expectedContent (s : Section) (relocated : RelocatedLink) (i : Nat) : List UInt8 :=
  if noContent s then []
  else (relocated.pax_files.map fun f => f.section_contents.getD i []).flatten

/-- The image parses, and each of its sections is the merged content. -/
def ContentsKept (first : ParsedPax) (relocated : RelocatedLink) (out : List UInt8) : Prop :=
  ∃ image, parse_pax "out.pax" (.ok out) = .ok (.ok image) ∧
    image.section_table.sections.length = first.section_table.sections.length ∧
    ∀ (i : Nat) (s s' : Section), first.section_table.sections[i]? = some s →
      image.section_table.sections[i]? = some s' →
      image.section_content s' = .ok (expectedContent s relocated i)

/-! ## Where the merged contents are written -/

/-- The bytes that section `j` of all inputs adds to the image. -/
def mergedSize (ps : List ParsedPax) (j : Nat) : Nat :=
  (ps.map fun p => ((p.section_table.sections.map p.content).getD j []).length).sum

/-- The place of merged section `i`: behind the header, the table of the first
input and the merged sections before it. -/
def position (ps : List ParsedPax) (n i : Nat) : Nat :=
  96 + n * 64 + ((List.range i).map (mergedSize ps)).sum

/-- The names of the first input survive the cut to 23 bytes. -/
def NamesFit (p : ParsedPax) : Prop := ∀ s ∈ p.section_table.sections, s.truncated.isSome

/-- No later input adds to section `i`. -/
def AddsNothing (rest : List ParsedPax) (i : Nat) : Prop :=
  ∀ p ∈ rest, ∀ t, p.section_table.sections[i]? = some t → t.content_size = 0

/-- The descriptor of the first input fits the image: a stored section is
added to by no other input and stands where its content is written; a section
without content has no size, or starts where the image ends. -/
def InPlace (first : ParsedPax) (rest : List ParsedPax) (i : Nat) (s : Section) : Prop :=
  let n := first.section_table.sections.length
  if noContent s then
    s.content_size = 0 ∨ s.content_offset.toNat = position (first :: rest) n n
  else AddsNothing rest i ∧
    (s.content_size = 0 ∨ s.content_offset.toNat = position (first :: rest) n i)

/-! ## Merging -/

theorem length_extend_sections (ms cs : List (List UInt8)) :
    (extend_sections ms cs).length = ms.length := by
  induction ms generalizing cs with
  | nil => rfl
  | cons m ms ih =>
    rcases cs with _ | ⟨c, cs⟩
    · rfl
    · simp [extend_sections, ih]

theorem getElem?_extend_sections (ms cs : List (List UInt8)) (i : Nat) :
    (extend_sections ms cs)[i]? = ms[i]?.map (· ++ cs.getD i []) := by
  induction ms generalizing cs i with
  | nil => simp [extend_sections]
  | cons m ms ih =>
    rcases cs with _ | ⟨c, cs⟩
    · cases h : (m :: ms)[i]? <;> simp [extend_sections, h]
    · cases i with
      | zero => simp [extend_sections]
      | succ i => simp [extend_sections, ih]

/-- Merged section `i` is the content of section `i` of the inputs in order. -/
theorem getElem?_merged_sections (n : Nat) (f : RelocatedPax) (fs : List RelocatedPax) (i : Nat)
    (hi : i < n) : (merged_sections n f fs)[i]? =
      some (((f :: fs).map fun f => f.section_contents.getD i []).flatten) := by
  have hfold : ∀ (fs : List RelocatedPax) (ms : List (List UInt8)),
      (fs.foldl (fun merged f => extend_sections merged f.section_contents) ms)[i]? =
        ms[i]?.map (· ++ (fs.map fun f => f.section_contents.getD i []).flatten) := by
    intro fs
    induction fs with
    | nil => simp
    | cons f fs ih =>
      intro ms
      rw [List.foldl_cons, ih, getElem?_extend_sections]
      cases ms[i]? <;> simp
  rw [merged_sections, hfold, getElem?_extend_sections, List.getElem?_replicate, if_pos hi]
  simp

theorem length_merged_sections (n : Nat) (f : RelocatedPax) (fs : List RelocatedPax) :
    (merged_sections n f fs).length = n := by
  have hfold : ∀ (fs : List RelocatedPax) (ms : List (List UInt8)),
      (fs.foldl (fun merged f => extend_sections merged f.section_contents) ms).length =
        ms.length := by
    intro fs
    induction fs with
    | nil => simp
    | cons f fs ih =>
      intro ms
      rw [List.foldl_cons, ih, length_extend_sections]
  rw [merged_sections, hfold, length_extend_sections, List.length_replicate]

theorem flatten_part {L : List (List UInt8)} {i : Nat} {x : List UInt8} (h : L[i]? = some x) :
    (L.flatten.drop ((L.take i).map length).sum).take x.length = x := by
  induction L generalizing i with
  | nil => cases h
  | cons y L ih =>
    cases i with
    | zero =>
      cases h
      simp
    | succ i =>
      rw [List.getElem?_cons_succ] at h
      rw [List.take_succ_cons, map_cons, List.sum_cons, flatten_cons, List.drop_length_add_append]
      exact ih h

section

variable {ps : List ParsedPax} {resolved : ResolvedLink} {files : List RelocatedPax}

theorem length_relocated (h : relocate_from resolved 0 ps = .ok files) (j : Nat) :
    (files.map fun f => (f.section_contents.getD j []).length) =
      ps.map fun p => ((p.section_table.sections.map p.content).getD j []).length := by
  have hgetD : ∀ cs : List (List UInt8), (cs.getD j []).length = (cs.map length).getD j 0 := by
    intro cs
    simp only [List.getD_eq_getElem?_getD, List.getElem?_map]
    cases cs[j]? <;> rfl
  have hlen := congrArg (List.map fun ls => ls.getD j 0) (relocate_from_lengths h)
  simp only [map_map, comp_def] at hlen
  simp only [hgetD, map_map, comp_def]
  exact hlen

theorem length_merged {f : RelocatedPax} {fs : List RelocatedPax} {n j : Nat} {x : List UInt8}
    (h : relocate_from resolved 0 ps = .ok (f :: fs)) (hj : j < n)
    (hx : (merged_sections n f fs)[j]? = some x) : x.length = mergedSize ps j := by
  rw [getElem?_merged_sections n f fs j hj] at hx
  cases hx
  rw [mergedSize, ← length_relocated h j, List.length_flatten]
  simp [comp_def]

/-- The merged sections before section `i` take the bytes that the position of
`i` counts. -/
theorem sum_merged {f : RelocatedPax} {fs : List RelocatedPax} {n i : Nat}
    (h : relocate_from resolved 0 ps = .ok (f :: fs)) (hi : i ≤ n) :
    (((merged_sections n f fs).take i).map length).sum =
      ((List.range i).map (mergedSize ps)).sum := by
  congr 1
  apply List.ext_getElem?
  intro j
  by_cases hj : j < i
  · have hmj := getElem?_merged_sections n f fs j (by omega)
    rw [List.getElem?_map, List.getElem?_take_of_lt hj, hmj, List.getElem?_map,
      List.getElem?_range hj]
    exact congrArg some (length_merged h (by omega) hmj)
  · have hlen := length_merged_sections n f fs
    rw [List.getElem?_eq_none (by simp; omega), List.getElem?_eq_none (by simp; omega)]

end

/-! ## Reading the image back -/

theorem forall₂_of_mapM {α β : Type} {f : α → Option β} {xs : List α} :
    ∀ {ys : List β}, xs.mapM f = some ys → List.Forall₂ (fun x y => f x = some y) xs ys := by
  induction xs with
  | nil =>
    intro ys h
    cases h
    exact .nil
  | cons x xs ih =>
    intro ys h
    rw [mapM_cons] at h
    rcases hx : f x with _ | y
    · rw [hx] at h
      cases h
    · rw [hx] at h
      rcases hxs : xs.mapM f with _ | zs
      · rw [hxs] at h
        cases h
      · rw [hxs] at h
        cases h
        exact .cons hx (ih hxs)

theorem mapM_of_isSome {α β : Type} {f : α → Option β} {xs : List α}
    (h : ∀ x ∈ xs, (f x).isSome) : ∃ ys, xs.mapM f = some ys := by
  induction xs with
  | nil => exact ⟨[], rfl⟩
  | cons x xs ih =>
    obtain ⟨hx, hxs⟩ := List.forall_mem_cons.mp h
    obtain ⟨y, hy⟩ := Option.isSome_iff_exists.mp hx
    obtain ⟨ys, hys⟩ := ih hxs
    exact ⟨y :: ys, by rw [mapM_cons, hy, hys]; rfl⟩

variable {p : ParsedPax} {s : Section}

theorem section_content_congr {q : ParsedPax} {t : Section} (hbytes : p.bytes = q.bytes)
    (hoffset : s.content_offset = t.content_offset) (hsize : s.content_size = t.content_size) :
    p.section_content s = q.section_content t := by
  unfold section_content
  rw [hbytes, hoffset, hsize]

theorem truncated_fields {t : Section} (h : s.truncated = some t) :
    s.content_offset = t.content_offset ∧ s.content_size = t.content_size := by
  obtain ⟨name, -, rfl⟩ := Option.map_eq_some_iff.mp h
  exact ⟨rfl, rfl⟩

theorem header_of_accepts {file : InputFile} (h : Accepts file p) :
    p.header.magic = PAX_MAGIC ∧ p.header.format_version = PAX_FORMAT_VERSION := by
  obtain ⟨-, hheader, hversion, -⟩ := h
  refine ⟨?_, hversion⟩
  have hread := from_bytes_eq_headerOf p.bytes
  rw [hheader] at hread
  have hlen : ¬ p.bytes.length < PAX_HEADER_SIZE := by
    intro hshort
    rw [headerOf_short hshort] at hheader
    cases hheader
  obtain ⟨magic, version, arch, flags, offset, count, reserved, hash, sig, rest, heq⟩ :=
    PaxHeader.exists_fields (Nat.not_lt.mp hlen)
  rw [heq, PaxHeader.from_bytes_fields] at hread
  split at hread
  · cases hread
  · next hmagic =>
    split at hread
    · cases hread
    · rw [ok.injEq, Option.some.injEq] at hread
      rw [← hread]
      exact not_not.mp hmagic

theorem count_of_accepts {file : InputFile} (h : Accepts file p) :
    p.header.section_count.toNat = p.section_table.sections.length := by
  obtain ⟨-, -, -, htable⟩ := h
  split at htable
  · next hcount => rw [hcount, htable]; rfl
  · exact (SectionTable.length_of_from_bytes htable.2).symm

section

variable {first : ParsedPax} {hash : Vector UInt8 32} {contents : List (List UInt8)}

/-- The bytes of an image with the table of the first input. -/
def imageBytes (first : ParsedPax) (hash : Vector UInt8 32) (contents : List (List UInt8)) :
    List UInt8 :=
  (writtenHeader first hash).to_bytes ++ (first.section_table.to_bytes ++ contents.flatten)

theorem headerOf_imageBytes (hfirst : WellFormed first) :
    headerOf (imageBytes first hash contents) = some (writtenHeader first hash) := by
  have hmagic : (writtenHeader first hash).magic = PAX_MAGIC :=
    (header_of_accepts hfirst.accepted).1
  rw [headerOf, imageBytes, PaxHeader.from_bytes_to_bytes _ _ hmagic]

/-- The image parses exactly when the names fit, as a table of the first
input's descriptors up to their names. -/
theorem parse_imageBytes_iff (hfirst : WellFormed first) {image : ParsedPax} :
    parse_pax "out.pax" (.ok (imageBytes first hash contents)) = .ok (.ok image) ↔
      ∃ sections, first.section_table.sections.mapM Section.truncated = some sections ∧
        image = ⟨"out.pax", writtenHeader first hash, ⟨sections⟩,
          imageBytes first hash contents⟩ := by
  have hcount := count_of_accepts hfirst.accepted
  have hversion := (header_of_accepts hfirst.accepted).2
  have hheader : headerOf (imageBytes first hash contents) = some (writtenHeader first hash) :=
    headerOf_imageBytes hfirst
  have hdrop : (imageBytes first hash contents).drop 96 =
      first.section_table.to_bytes ++ contents.flatten := by
    rw [imageBytes, List.drop_append_of_le_length (by simp), List.drop_of_length_le (by simp),
      List.nil_append]
  have htable := SectionTable.from_bytes_to_bytes first.section_table contents.flatten
    first.header.section_count hcount
  rw [@parse_pax_eq_ok_iff ("out.pax", .ok (imageBytes first hash contents))]
  constructor
  · rintro ⟨hfile, himage, -, hsections⟩
    obtain ⟨path, header, table, bytes⟩ := image
    cases hfile
    cases hheader.symm.trans himage
    have hcases : ∃ sections, first.section_table.sections.mapM Section.truncated =
        some sections ∧ table = ⟨sections⟩ := by
      split at hsections
      · next hzero =>
        have hnil : first.section_table.sections = [] := by
          apply length_eq_zero_iff.mp
          rw [← hcount]
          exact congrArg UInt32.toNat hzero
        exact ⟨[], by rw [hnil]; rfl, hsections⟩
      · have hparsed := hsections.2
        change SectionTable.from_bytes ((imageBytes first hash contents).drop 96)
          first.header.section_count = _ at hparsed
        rw [hdrop, htable, ok.injEq] at hparsed
        obtain ⟨sections, hsome, rfl⟩ := Option.map_eq_some_iff.mp hparsed
        exact ⟨sections, hsome, rfl⟩
    obtain ⟨sections, hsome, rfl⟩ := hcases
    exact ⟨sections, hsome, rfl⟩
  · rintro ⟨sections, hsome, rfl⟩
    refine ⟨rfl, hheader, hversion, ?_⟩
    split
    · next hzero =>
      have hnil : first.section_table.sections = [] := by
        apply length_eq_zero_iff.mp
        rw [← hcount]
        exact congrArg UInt32.toNat hzero
      rw [hnil] at hsome
      cases hsome
      rfl
    · refine ⟨?_, ?_⟩
      · change 96 ≤ (imageBytes first hash contents).length
        simp [imageBytes]
      · change SectionTable.from_bytes ((imageBytes first hash contents).drop 96)
          first.header.section_count = _
        rw [hdrop, htable, hsome]
        rfl

/-- The contents are kept exactly when the names fit and the descriptors of the
first input show the merged contents in the image. -/
theorem contentsKept_iff (hfirst : WellFormed first) (hash : Vector UInt8 32)
    (contents : List (List UInt8)) (relocated : RelocatedLink) :
    ContentsKept first relocated (imageBytes first hash contents) ↔
      NamesFit first ∧ ∀ (i : Nat) (s : Section), first.section_table.sections[i]? = some s →
        section_content { first with bytes := imageBytes first hash contents } s =
          .ok (expectedContent s relocated i) := by
  constructor
  · rintro ⟨image, hparse, hlen, hkept⟩
    obtain ⟨sections, hsome, rfl⟩ := (parse_imageBytes_iff hfirst).mp hparse
    have hall := forall₂_of_mapM hsome
    constructor
    · intro s hs
      obtain ⟨i, hi⟩ := List.mem_iff_getElem?.mp hs
      obtain ⟨hi', rfl⟩ := List.getElem?_eq_some_iff.mp hi
      have hlt : i < sections.length := hall.length_eq ▸ hi'
      have htrunc : first.section_table.sections[i].truncated = some sections[i] :=
        hall.get hi' hlt
      rw [htrunc]
      rfl
    · intro i s hi
      obtain ⟨hi', rfl⟩ := List.getElem?_eq_some_iff.mp hi
      have hlt : i < sections.length := hall.length_eq ▸ hi'
      obtain ⟨hoffset, hsize⟩ := truncated_fields (hall.get hi' hlt)
      rw [← hkept i _ sections[i] hi (List.getElem?_eq_getElem hlt)]
      exact section_content_congr rfl hoffset hsize
  · rintro ⟨hnames, hkept⟩
    obtain ⟨sections, hsome⟩ := mapM_of_isSome hnames
    have hall := forall₂_of_mapM hsome
    refine ⟨_, (parse_imageBytes_iff hfirst).mpr ⟨sections, hsome, rfl⟩, hall.length_eq.symm, ?_⟩
    intro i s s' hi hi'
    obtain ⟨hlt, rfl⟩ := List.getElem?_eq_some_iff.mp hi
    obtain ⟨hlt', rfl⟩ := List.getElem?_eq_some_iff.mp hi'
    obtain ⟨hoffset, hsize⟩ := truncated_fields (hall.get hlt hlt')
    rw [← hkept i _ hi]
    exact section_content_congr rfl hoffset.symm hsize.symm

end

/-! ## One section of the image -/

/-- A section without content is read as nothing exactly when it has no size,
or starts where the bytes end. -/
theorem section_content_nil_iff (hsum : s.content_size = 0 ∨ s.content_offset.toNat + s.content_size.toNat < 2 ^ 64) :
    p.section_content s = .ok [] ↔
      s.content_size = 0 ∨ s.content_offset.toNat = p.bytes.length := by
  by_cases hzero : s.content_size = 0
  · refine iff_of_true ?_ (.inl hzero)
    rw [section_content, if_pos hzero]
  have hsum := hsum.resolve_left hzero
  have hpos : 0 < s.content_size.toNat := by
    rcases Nat.eq_zero_or_pos s.content_size.toNat with h | h
    · exact absurd (UInt64.toNat_inj.mp h) hzero
    · exact h
  constructor
  · intro h
    have hinside := inside_of_section_content h
    rw [section_content_of_inside hinside, ok.injEq] at h
    have hstart := (hinside.resolve_left hzero).2
    have hlen := congrArg length h
    simp only [content, List.length_take, List.length_drop, List.length_nil] at hlen
    exact .inr (by omega)
  · rintro (h | h)
    · exact absurd h hzero
    · rw [section_content_of_inside (.inr ⟨hsum, h.le⟩), content, h, List.drop_length]
      simp

/-- The image holds the same bytes at two places. -/
def Repeats (out : List UInt8) (a b size : Nat) : Prop :=
  a ≠ b ∧ (out.drop a).take size = (out.drop b).take size

section

variable {first : ParsedPax} {rest : List ParsedPax} {resolved : ResolvedLink} {f : RelocatedPax}
  {fs : List RelocatedPax} {hash : Vector UInt8 32} {p : ParsedPax} {s : Section} {i : Nat}

theorem length_content_stored (hp : WellFormed p) (hs : s ∈ p.section_table.sections)
    (hstored : ¬ noContent s) :
    (p.content s).length = s.content_size.toNat := by
  have hin := hp.stored s hs hstored
  simp only [content, List.length_take, List.length_drop]
  omega

theorem length_getD_content (hp : WellFormed p) (hi : p.section_table.sections[i]? = some s)
    (hstored : ¬ noContent s) :
    ((p.section_table.sections.map p.content).getD i []).length = s.content_size.toNat := by
  rw [List.getD_eq_getElem?_getD, List.getElem?_map, hi]
  exact length_content_stored hp (List.mem_of_getElem? hi) hstored

/-- Section `i` of an input of the same shape has the same flags. -/
theorem noContent_of_sameShape {q : ParsedPax} (h : SameShape p q) {t : Section}
    (hs : p.section_table.sections[i]? = some s) (ht : q.section_table.sections[i]? = some t) :
    noContent s ↔ noContent t := by
  have hi := congrArg (fun l => l[i]?) h
  simp only [List.getElem?_map, hs, ht, Option.map_some, Option.some.injEq, Prod.mk.injEq] at hi
  rw [noContent, noContent, hi.2]

section

variable (h : relocate_from resolved 0 (first :: rest) = .ok (f :: fs))

include h

/-- The bytes that the later inputs add to a stored section. -/
theorem later_eq_nil_iff (hwf : ∀ p ∈ rest, WellFormed p) (hshape : ∀ p ∈ rest, SameShape first p)
    (hi : first.section_table.sections[i]? = some s) (hstored : ¬ noContent s) :
    (fs.map fun f => f.section_contents.getD i []).flatten = [] ↔ AddsNothing rest i := by
  have hlen := length_relocated h i
  simp only [map_cons, List.cons.injEq] at hlen
  rw [← length_eq_zero_iff, List.length_flatten, map_map, comp_def, hlen.2]
  rw [List.sum_eq_zero_iff]
  unfold AddsNothing
  simp only [List.mem_map, forall_exists_index, and_imp, forall_apply_eq_imp_iff₂]
  constructor
  · intro hzero p hp t ht
    have hstored' : ¬ noContent t :=
      fun hc => hstored ((noContent_of_sameShape (hshape p hp) hi ht).mpr hc)
    have := hzero p hp
    rw [length_getD_content (hwf p hp) ht hstored'] at this
    exact UInt64.toNat_inj.mp this
  · intro hadds p hp
    rcases ht : p.section_table.sections[i]? with _ | t
    · simp [List.getD_eq_getElem?_getD, ht]
    · have hstored' : ¬ noContent t :=
        fun hc => hstored ((noContent_of_sameShape (hshape p hp) hi ht).mpr hc)
      rw [length_getD_content (hwf p hp) ht hstored', hadds p hp t ht]
      rfl

omit h in
theorem image_at_position (hash : Vector UInt8 32)
    (h : relocate_from resolved 0 (first :: rest) = .ok (f :: fs))
    (hi : i < first.section_table.sections.length) :
    let n := first.section_table.sections.length
    ((imageBytes first hash (merged_sections n f fs)).drop (position (first :: rest) n i)).take
        (((f :: fs).map fun f => f.section_contents.getD i []).flatten).length =
      ((f :: fs).map fun f => f.section_contents.getD i []).flatten := by
  intro n
  have hpart := flatten_part (getElem?_merged_sections n f fs i hi)
  rw [sum_merged h hi.le] at hpart
  have hfront : imageBytes first hash (merged_sections n f fs) =
      ((writtenHeader first hash).to_bytes ++ first.section_table.to_bytes) ++
        (merged_sections n f fs).flatten := by
    rw [imageBytes, List.append_assoc]
  have hlen : ((writtenHeader first hash).to_bytes ++ first.section_table.to_bytes).length =
      96 + n * 64 := by simp [n]
  rw [hfront, position, ← hlen, List.drop_length_add_append]
  exact hpart

theorem length_imageBytes : let n := first.section_table.sections.length
    (imageBytes first hash (merged_sections n f fs)).length = position (first :: rest) n n := by
  intro n
  have hsum := sum_merged h (le_refl n)
  rw [List.take_of_length_le (length_merged_sections n f fs).le] at hsum
  rw [imageBytes, position, ← hsum]
  simp only [List.length_append, PaxHeader.length_to_bytes, SectionTable.length_to_bytes,
    List.length_flatten]
  omega

/-- A stored section is read back whole only if no later input adds to it. -/
theorem later_eq_nil_of_read (hfirst : WellFormed first) (hi : first.section_table.sections[i]? = some s) (hstored : ¬ noContent s) (hread : p.section_content s =
      .ok (((f :: fs).map fun f => f.section_contents.getD i []).flatten)) :
    (fs.map fun f => f.section_contents.getD i []).flatten = [] := by
  have hinside := inside_of_section_content hread
  rw [section_content_of_inside hinside, ok.injEq] at hread
  have hlen := congrArg length hread
  have hfirstLen := length_relocated h i
  simp only [map_cons, List.cons.injEq] at hfirstLen
  rw [length_getD_content hfirst hi hstored] at hfirstLen
  rw [map_cons, flatten_cons, List.length_append, hfirstLen.1] at hlen
  have hle : (p.content s).length ≤ s.content_size.toNat := List.length_take_le _ _
  apply length_eq_zero_iff.mp
  omega

omit h in
theorem position_le {ps : List ParsedPax} {n : Nat} (hi : i ≤ n) :
    position ps n i ≤ position ps n n := by
  obtain ⟨k, rfl⟩ := Nat.exists_eq_add_of_le hi
  rw [position, position, List.range_add, List.map_append, List.sum_append]
  omega

/-- The relocated content of a stored section that no later input adds to has
the size of its descriptor. -/
theorem length_expected (hfirst : WellFormed first) (hi : first.section_table.sections[i]? = some s)
    (hstored : ¬ noContent s)
    (hlater : (fs.map fun f => f.section_contents.getD i []).flatten = []) :
    (((f :: fs).map fun f => f.section_contents.getD i []).flatten).length =
      s.content_size.toNat := by
  have hfirstLen := length_relocated h i
  simp only [map_cons, List.cons.injEq] at hfirstLen
  rw [length_getD_content hfirst hi hstored] at hfirstLen
  rw [map_cons, flatten_cons, hlater, List.append_nil, hfirstLen.1]

/-- A descriptor in its place shows the merged content. -/
theorem read_of_inPlace (hwf : ∀ p ∈ first :: rest, WellFormed p)
    (hshape : ∀ p ∈ rest, SameShape first p)
    (hi : first.section_table.sections[i]? = some s) (hplace : InPlace first rest i s) :
    let n := first.section_table.sections.length
    section_content { first with bytes := imageBytes first hash (merged_sections n f fs) } s =
      .ok (expectedContent s ⟨f :: fs⟩ i) := by
  intro n
  obtain ⟨hfirst, hrest⟩ := List.forall_mem_cons.mp hwf
  have hreloc := relocatable_of_relocate_from h first (.head _)
  have hinside := hreloc.sections s (List.mem_of_getElem? hi)
  have hlen : (imageBytes first hash (merged_sections n f fs)).length =
      position (first :: rest) n n := length_imageBytes h
  have hlt : i < n := (List.getElem?_eq_some_iff.mp hi).1
  unfold InPlace at hplace
  unfold expectedContent
  split at hplace
  · next hnone =>
    rw [if_pos hnone, section_content_nil_iff (hinside.imp_right And.left)]
    exact hplace.imp_right (fun h => h.trans hlen.symm)
  · next hstored =>
    obtain ⟨hadds, hplace⟩ := hplace
    have hlater := (later_eq_nil_iff h hrest hshape hi hstored).mpr hadds
    have hsize := length_expected h hfirst hi hstored hlater
    rw [if_neg hstored]
    by_cases hzero : s.content_size = 0
    · rw [hzero] at hsize
      rw [section_content, if_pos hzero, length_eq_zero_iff.mp hsize]
    · have hoffset := hplace.resolve_left hzero
      have hsum := (hinside.resolve_left hzero).1
      have hbound : s.content_offset.toNat ≤
          (imageBytes first hash (merged_sections n f fs)).length := by
        rw [hlen, hoffset]
        exact position_le hlt.le
      rw [section_content_of_inside (.inr ⟨hsum, hbound⟩), content, hoffset, ← hsize]
      exact congrArg ok (image_at_position hash h hlt)

/-- A descriptor that shows the merged content is in its place, or the image
happens to hold the same bytes where it points. -/
theorem inPlace_of_read (hwf : ∀ p ∈ first :: rest, WellFormed p)
    (hshape : ∀ p ∈ rest, SameShape first p)
    (hi : first.section_table.sections[i]? = some s)
    (hread : section_content { first with
        bytes := imageBytes first hash (merged_sections first.section_table.sections.length f fs) } s =
      .ok (expectedContent s ⟨f :: fs⟩ i)) :
    let n := first.section_table.sections.length
    InPlace first rest i s ∨ (¬ noContent s ∧ AddsNothing rest i ∧
      Repeats (imageBytes first hash (merged_sections n f fs)) s.content_offset.toNat
        (position (first :: rest) n i) s.content_size.toNat) := by
  intro n
  obtain ⟨hfirst, hrest⟩ := List.forall_mem_cons.mp hwf
  have hreloc := relocatable_of_relocate_from h first (.head _)
  have hinside := hreloc.sections s (List.mem_of_getElem? hi)
  have hlt : i < n := (List.getElem?_eq_some_iff.mp hi).1
  unfold InPlace
  unfold expectedContent at hread
  split at hread
  · next hnone =>
    rw [if_pos hnone]
    rw [section_content_nil_iff (hinside.imp_right And.left)] at hread
    exact .inl (hread.imp_right (fun hend => hend.trans (length_imageBytes h)))
  · next hstored =>
    rw [if_neg hstored]
    have hlater := later_eq_nil_of_read h hfirst hi hstored hread
    have hadds := (later_eq_nil_iff h hrest hshape hi hstored).mp hlater
    by_cases hoffset : s.content_offset.toNat = position (first :: rest) n i
    · exact .inl ⟨hadds, .inr hoffset⟩
    · refine .inr ⟨hstored, hadds, hoffset, ?_⟩
      have hsize := length_expected h hfirst hi hstored hlater
      have hbytes := image_at_position hash h hlt
      rw [hsize] at hbytes
      rw [section_content_of_inside (inside_of_section_content hread), ok.injEq] at hread
      exact hread.trans hbytes.symm

end

end

/-- Linking keeps the contents when the names of the first input fit and its
descriptors are in place, and, up to bytes that the image happens to repeat,
only then. -/
theorem linked_contents_kept (blake3 : List UInt8 → Vector UInt8 32) {first : ParsedPax}
    {rest : List ParsedPax} {resolved : ResolvedLink} {relocated : RelocatedLink}
    {out : List UInt8} (hwf : ∀ p ∈ first :: rest, WellFormed p)
    (hshape : ∀ p ∈ rest, SameShape first p)
    (hrelocate : relocate_inputs (first :: rest) resolved = .ok relocated)
    (hemit : emit_final_pax blake3 (first :: rest) relocated = .ok out) :
    ((NamesFit first ∧ ∀ (i : Nat) (s : Section), first.section_table.sections[i]? = some s →
        InPlace first rest i s) → ContentsKept first relocated out) ∧
    (ContentsKept first relocated out → NamesFit first ∧
      ∀ (i : Nat) (s : Section), first.section_table.sections[i]? = some s →
        InPlace first rest i s ∨ (¬ noContent s ∧ AddsNothing rest i ∧
          Repeats out s.content_offset.toNat (position (first :: rest)
            first.section_table.sections.length i) s.content_size.toNat)) := by
  obtain ⟨files, hfiles, hlink⟩ := Outcome.bind_eq_ok.mp hrelocate
  cases hlink
  have hfirst := hwf first (.head _)
  rcases files with _ | ⟨f, fs⟩
  · have hlen := congrArg List.length (relocate_from_lengths hfiles)
    simp at hlen
  rw [emit_final_pax_cons] at hemit
  cases hemit
  have hkept := contentsKept_iff hfirst (compute_content_hash blake3 (linkedHeader first)
    first.section_table (merged_sections first.section_table.sections.length f fs))
    (merged_sections first.section_table.sections.length f fs) ⟨f :: fs⟩
  rw [imageBytes] at hkept
  constructor
  · rintro ⟨hnames, hplace⟩
    refine hkept.mpr ⟨hnames, ?_⟩
    intro i s hi
    exact read_of_inPlace hfiles hwf hshape hi (hplace i s hi)
  · intro h
    obtain ⟨hnames, hread⟩ := hkept.mp h
    refine ⟨hnames, ?_⟩
    intro i s hi
    exact inPlace_of_read hfiles hwf hshape hi (hread i s hi)

/-! ## Two files with a byte of code -/

def codeSection : Section := ⟨.Code, 1, 160, 1, 0, 16, ".code"⟩

def codeHeader : PaxHeader :=
  { PaxHeader.new .X86_64 with section_table_offset := 96, section_count := 1 }

/-- A file whose only section is one byte of code. -/
def codeFile (path : String) (b : UInt8) : ParsedPax :=
  ⟨path, codeHeader, ⟨[codeSection]⟩,
    codeHeader.to_bytes ++ (SectionTable.to_bytes ⟨[codeSection]⟩ ++ [b])⟩

theorem truncated_codeSection : codeSection.truncated = some codeSection := by
  have hname : (Section.storedName codeSection.name).takeWhile (· ≠ 0) = as_bytes ".code" := by
    decide
  rw [Section.truncated, hname, from_utf8_as_bytes]
  rfl

variable (path : String)

theorem codeFile_wellFormed (b : UInt8) : WellFormed (codeFile path b) := by
  have hheader : headerOf (codeFile path b).bytes = some codeHeader := by
    rw [headerOf, codeFile, PaxHeader.from_bytes_to_bytes _ _ rfl]
  have hdrop : (codeFile path b).bytes.drop 96 = SectionTable.to_bytes ⟨[codeSection]⟩ ++ [b] := by
    rw [codeFile, List.drop_append_of_le_length (by simp), List.drop_of_length_le (by simp),
      List.nil_append]
  have htable : SectionTable.from_bytes ((codeFile path b).bytes.drop 96) 1 =
      .ok (some ⟨[codeSection]⟩) := by
    rw [hdrop, SectionTable.from_bytes_to_bytes _ _ _ (by rfl), mapM_cons, truncated_codeSection]
    rfl
  refine ⟨⟨rfl, hheader, rfl, ?_⟩, ?_⟩
  · exact ⟨by simp [codeFile, codeHeader], htable⟩
  · intro s hs _
    obtain rfl := List.mem_singleton.mp hs
    simp [codeFile, codeSection]

theorem content_codeFile (b : UInt8) : (codeFile path b).content codeSection = [b] := by
  have hbytes : (codeFile path b).bytes =
      (codeHeader.to_bytes ++ SectionTable.to_bytes ⟨[codeSection]⟩) ++ [b] := by
    rw [codeFile, List.append_assoc]
  have hlen : (codeHeader.to_bytes ++ SectionTable.to_bytes ⟨[codeSection]⟩).length = 160 := by
    simp
  rw [content, hbytes, show codeSection.content_offset.toNat = 160 from rfl, ← hlen, List.drop_left]
  rfl

/-- The link of files that refer to nothing. -/
def emptyLink (ps : List ParsedPax) : ResolvedLink :=
  ⟨ps.mapIdx fun i p => ⟨i, p.path, fun _ => none⟩, .default, .default⟩

theorem relocate_codeFile (b : UInt8) (rp : ResolvedPax) :
    relocate_pax (codeFile path b) rp = .ok [[b] ] := by
  have hinside : ∀ s ∈ (codeFile path b).section_table.sections, (codeFile path b).Inside s := by
    intro s hs
    obtain rfl := List.mem_singleton.mp hs
    refine .inr ⟨by decide, ?_⟩
    simp [codeFile, codeSection]
  have hrelocs : relocs (codeFile path b) = .ok none := rfl
  rw [relocate_pax, copy_contents_eq hinside, Outcome.ok_bind, hrelocs]
  change ok ([codeSection].map (codeFile path b).content) = _
  rw [List.map_singleton, content_codeFile]

theorem relocate_oneFile :
    relocate_inputs [codeFile "a.pax" 0x90] (emptyLink [codeFile "a.pax" 0x90]) =
      .ok ⟨[⟨0, [[0x90] ]⟩]⟩ := by
  simp [relocate_inputs, relocate_from, relocate_codeFile, emptyLink]

/-- One file, whose descriptor is in its place, is kept. -/
theorem linked_contents_kept_one_file :
    ∃ out, emit_final_pax frontHash [codeFile "a.pax" 0x90] ⟨[⟨0, [[0x90] ]⟩]⟩ = .ok out ∧
      ContentsKept (codeFile "a.pax" 0x90) ⟨[⟨0, [[0x90] ]⟩]⟩ out := by
  have hemit := emit_final_pax_cons frontHash (codeFile "a.pax" 0x90) [] ⟨0, [[0x90] ]⟩ []
  have hwf : ∀ p ∈ [codeFile "a.pax" 0x90], WellFormed p := by
    intro p hp
    obtain rfl := List.mem_singleton.mp hp
    exact codeFile_wellFormed _ _
  refine ⟨_, hemit, (linked_contents_kept frontHash hwf (by simp) relocate_oneFile hemit).1
    ⟨?_, ?_⟩⟩
  · intro s hs
    obtain rfl := List.mem_singleton.mp hs
    rw [truncated_codeSection]
    rfl
  · intro i s hi
    match i with
    | 0 =>
      obtain rfl := Option.some.inj hi
      exact ⟨by simp [AddsNothing], .inr rfl⟩
    | i + 1 => cases hi

theorem relocate_twoFiles :
    relocate_from (emptyLink [codeFile "a.pax" 0x90, codeFile "b.pax" 0xC3]) 0
        [codeFile "a.pax" 0x90, codeFile "b.pax" 0xC3] =
      .ok [⟨0, [[0x90] ]⟩, ⟨1, [[0xC3] ]⟩] := by
  simp [relocate_from, relocate_codeFile, emptyLink]

/-- Of two such files the byte of the second is lost: the descriptor of the
first still says one byte. -/
theorem second_file_lost :
    WellFormed (codeFile "a.pax" 0x90) ∧ WellFormed (codeFile "b.pax" 0xC3) ∧
    SameShape (codeFile "a.pax" 0x90) (codeFile "b.pax" 0xC3) ∧
    resolve_inputs [codeFile "a.pax" 0x90, codeFile "b.pax" 0xC3] =
      .ok (some (emptyLink [codeFile "a.pax" 0x90, codeFile "b.pax" 0xC3]), []) ∧
    relocate_inputs [codeFile "a.pax" 0x90, codeFile "b.pax" 0xC3]
        (emptyLink [codeFile "a.pax" 0x90, codeFile "b.pax" 0xC3]) =
      .ok ⟨[⟨0, [[0x90] ]⟩, ⟨1, [[0xC3] ]⟩]⟩ ∧
    ∃ out, emit_final_pax frontHash [codeFile "a.pax" 0x90, codeFile "b.pax" 0xC3]
        ⟨[⟨0, [[0x90] ]⟩, ⟨1, [[0xC3] ]⟩]⟩ = .ok out ∧
      ¬ ContentsKept (codeFile "a.pax" 0x90) ⟨[⟨0, [[0x90] ]⟩, ⟨1, [[0xC3] ]⟩]⟩ out := by
  refine ⟨codeFile_wellFormed _ _, codeFile_wellFormed _ _, rfl, rfl, ?_, ?_⟩
  · rw [relocate_inputs, relocate_twoFiles]
    rfl
  · refine ⟨_, emit_final_pax_cons frontHash _ _ _ _, ?_⟩
    intro hkept
    have hread := ((contentsKept_iff (codeFile_wellFormed "a.pax" 0x90) _ _ _).mp hkept).2 0
      codeSection rfl
    have hlater := later_eq_nil_of_read relocate_twoFiles (codeFile_wellFormed "a.pax" 0x90)
      (i := 0) rfl (by decide) hread
    cases hlater

end paideia_as_linker
