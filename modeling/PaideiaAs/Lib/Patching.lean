-- Fields written into a byte string one after the other. They may overlap: the
-- last field that covers a byte decides it, and the other bytes stay.
import PaideiaAs.Lib.Bytes

namespace Bytes

/-- Bytes for a place. -/
structure Field where
  pos : Nat
  bytes : List UInt8

namespace Field

def Covers (f : Field) (p : Nat) : Prop := f.pos ≤ p ∧ p < f.pos + f.bytes.length

instance (f : Field) (p : Nat) : Decidable (f.Covers p) := by
  unfold Covers; infer_instance

def Inside (f : Field) (n : Nat) : Prop := f.pos + f.bytes.length ≤ n

/-- The two have no byte in common. -/
def Apart (f g : Field) : Prop :=
  f.pos + f.bytes.length ≤ g.pos ∨ g.pos + g.bytes.length ≤ f.pos

end Field

variable {bs : List UInt8} {f : Field} {p : Nat} {fs : List Field}

theorem length_patch_inside (h : f.Inside bs.length) :
    (patch bs f.pos f.bytes).length = bs.length := by
  unfold Field.Inside at h
  simp only [patch, List.length_append, List.length_take, List.length_drop]
  omega

theorem getElem?_patch_in (h : f.Inside bs.length) (hp : f.Covers p) :
    (patch bs f.pos f.bytes)[p]? = f.bytes[p - f.pos]? := by
  obtain ⟨hlo, hhi⟩ := hp
  unfold Field.Inside at h
  have hfront : (bs.take f.pos).length = f.pos := List.length_take_of_le (by omega)
  unfold patch
  rw [List.append_assoc, List.getElem?_append_right (by omega), hfront,
    List.getElem?_append_left (by omega)]

theorem getElem?_patch_out (h : f.Inside bs.length) (hp : ¬ f.Covers p) :
    (patch bs f.pos f.bytes)[p]? = bs[p]? := by
  unfold Field.Inside at h
  have hfront : (bs.take f.pos).length = f.pos := List.length_take_of_le (by omega)
  unfold patch
  rcases Nat.lt_or_ge p f.pos with hlt | hge
  · rw [List.append_assoc, List.getElem?_append_left (by omega), List.getElem?_take, if_pos hlt]
  · have hafter : f.pos + f.bytes.length ≤ p := by
      by_contra hin
      exact hp ⟨hge, by omega⟩
    rw [List.append_assoc, List.getElem?_append_right (by omega), hfront,
      List.getElem?_append_right (by omega), List.getElem?_drop]
    congr 1
    omega

/-! ## Runs -/

def patchAll (bs : List UInt8) (fs : List Field) : List UInt8 :=
  fs.foldl (fun bs f => patch bs f.pos f.bytes) bs

/-- The last of the fields that cover a byte. -/
def lastOn (fs : List Field) (p : Nat) : Option Field := fs.reverse.find? (·.Covers p)

theorem lastOn_append (fs : List Field) (f : Field) (p : Nat) :
    lastOn (fs ++ [f]) p = if f.Covers p then some f else lastOn fs p := by
  unfold lastOn
  rw [List.reverse_append, List.reverse_singleton, List.singleton_append]
  split <;> simp_all

theorem lastOn_eq_none_iff : lastOn fs p = none ↔ ∀ f ∈ fs, ¬ f.Covers p := by
  unfold lastOn
  simp [List.find?_eq_none]

theorem length_patchAll (h : ∀ f ∈ fs, f.Inside bs.length) :
    (patchAll bs fs).length = bs.length := by
  unfold patchAll
  induction fs generalizing bs with
  | nil => rfl
  | cons f fs ih =>
    have hlen := length_patch_inside (h f (.head _))
    rw [List.foldl_cons, ih fun g hg => hlen ▸ h g (List.mem_cons_of_mem f hg), hlen]

/-- A byte after the run. -/
theorem getElem?_patchAll (h : ∀ f ∈ fs, f.Inside bs.length) (p : Nat) : (patchAll bs fs)[p]? =
      match lastOn fs p with
      | some f => f.bytes[p - f.pos]?
      | none => bs[p]? := by
  induction fs using List.reverseRecOn with
  | nil => rfl
  | append_singleton fs f ih =>
    have hfs : ∀ g ∈ fs, g.Inside bs.length := fun g hg => h g (List.mem_append_left _ hg)
    have hf : f.Inside (patchAll bs fs).length := by
      rw [length_patchAll hfs]
      exact h f (by simp)
    have hstep : patchAll bs (fs ++ [f]) = patch (patchAll bs fs) f.pos f.bytes := by
      unfold patchAll
      rw [List.foldl_append]
      rfl
    rw [hstep, lastOn_append]
    by_cases hc : f.Covers p
    · rw [getElem?_patch_in hf hc, if_pos hc]
    · rw [getElem?_patch_out hf hc, if_neg hc, ih hfs]

/-- The bytes at the place of a field are as wanted when each was last written so. -/
theorem window_patchAll_eq_iff {bs : List UInt8} {fs : List Field}
    (h : ∀ f ∈ fs, f.Inside bs.length) {f : Field} (hf : f ∈ fs) {want : List UInt8}
    (hlen : want.length = f.bytes.length) :
    ((patchAll bs fs).drop f.pos).take f.bytes.length = want ↔
      ∀ k < f.bytes.length, ∀ g, lastOn fs (f.pos + k) = some g →
        g.bytes[f.pos + k - g.pos]? = want[k]? := by
  have hget : ∀ k < f.bytes.length,
      (((patchAll bs fs).drop f.pos).take f.bytes.length)[k]? = (patchAll bs fs)[f.pos + k]? := by
    intro k hk
    rw [List.getElem?_take, if_pos hk, List.getElem?_drop]
  constructor
  · intro heq k hk g hg
    rw [← heq, hget k hk, getElem?_patchAll h, hg]
  · intro hall
    apply List.ext_getElem?
    intro k
    rcases Nat.lt_or_ge k f.bytes.length with hk | hk
    · rw [hget k hk, getElem?_patchAll h]
      cases hg : lastOn fs (f.pos + k) with
      | some g => exact hall k hk g hg
      | none => exact absurd ⟨by omega, by omega⟩ (lastOn_eq_none_iff.mp hg f hf)
    · rw [List.getElem?_eq_none (by simp; omega), List.getElem?_eq_none (by omega)]

theorem lastOn_of_apart (h : fs.Pairwise Field.Apart) (hf : f ∈ fs)
    (hp : f.Covers p) : lastOn fs p = some f := by
  induction fs using List.reverseRecOn with
  | nil => cases hf
  | append_singleton fs g ih =>
    rw [List.pairwise_append] at h
    rw [lastOn_append]
    rcases List.mem_append.mp hf with hfs | hg
    · have hapart := h.2.2 f hfs g (List.mem_singleton_self g)
      have hnot : ¬ g.Covers p := by
        rintro ⟨hlo, hhi⟩
        obtain ⟨hlo', hhi'⟩ := hp
        rcases hapart with h1 | h1 <;> omega
      rw [if_neg hnot]
      exact ih h.1 hfs
    · obtain rfl := List.mem_singleton.mp hg
      exact if_pos hp

/-- The bytes of a signed number, when it fits. -/
theorem signed_eq_iff {n : Nat} (hlen : bs.length = n) (hn : 0 < n) {x : Int} : signed bs = x ↔
      (-(128 * 256 ^ (n - 1) : Nat) ≤ x ∧ x < (128 * 256 ^ (n - 1) : Nat)) ∧ bs = sle n x := by
  have hbytes : sle n (signed bs) = bs := by
    unfold signed sle
    have hlt := ofLe_lt bs
    rw [hlen] at hlt ⊢
    rw [Int.bmod_emod, Int.emod_eq_of_lt (by omega) (by exact_mod_cast hlt), Int.toNat_natCast,
      ← hlen, le_ofLe]
  constructor
  · rintro rfl
    exact ⟨fits_of_signed_sle hn (by rw [hbytes]), hbytes.symm⟩
  · rintro ⟨hfits, rfl⟩
    exact (signed_sle_eq_iff hn).mpr hfits

end Bytes
