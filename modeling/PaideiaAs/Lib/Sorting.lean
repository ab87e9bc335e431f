-- What a stable sort and the removal of equal neighbours keep.
import Mathlib.Data.List.Destutter
import Mathlib.Data.List.Sort

namespace Sorting

open List (destutter_sublist lookup_cons mem_cons)

variable {α : Type} {le : α → α → Bool} {p : α → Bool} {l : List α}

/-- A stable sort keeps the order of elements that are alike. -/
theorem filter_mergeSort (htrans : ∀ a b c, le a b = true → le b c = true → le a c = true)
    (htotal : ∀ a b, (le a b || le b a) = true) (hp : ∀ a b, p a = true → p b = true → le a b = true) :
    (l.mergeSort le).filter p = l.filter p := by
  have hpair : (l.filter p).Pairwise fun a b => le a b = true := by
    refine List.pairwise_of_forall_mem_list ?_
    intro a ha b hb
    exact hp a b (List.mem_filter.mp ha).2 (List.mem_filter.mp hb).2
  have hsub : (l.filter p).Sublist (l.mergeSort le) :=
    List.sublist_mergeSort htrans htotal hpair List.filter_sublist
  have hsub' : (l.filter p).Sublist ((l.mergeSort le).filter p) := by
    have := hsub.filter p
    simpa using this
  exact (hsub'.eq_of_length ((List.mergeSort_perm l le).filter p).length_eq.symm).symm

theorem mem_destutter {β : Type} [DecidableEq β] {l : List β} {x : β} (h : x ∈ l) :
    x ∈ l.destutter (· ≠ ·) := by
  have hmem : ∀ a, x ∈ a :: l.tail → x ∈ (l.tail).destutter' (· ≠ ·) a := by
    generalize l.tail = t
    clear h
    induction t with
    | nil =>
      intro a hx
      simpa using hx
    | cons b t ih =>
      intro a hx
      rw [List.destutter'_cons]
      split
      · rcases mem_cons.mp hx with rfl | hx
        · exact List.mem_cons_self ..
        · exact .tail _ (ih b hx)
      · rename_i heq
        obtain rfl := not_not.mp heq
        refine ih a ?_
        simpa using hx
  cases l with
  | nil => cases h
  | cons a t => exact hmem a h

/-- The first and the last of a sorted list without neighbours alike. -/
theorem bounds_of_sorted (vs : List Nat) (hne : vs ≠ []) :
    ((vs.mergeSort).destutter (· ≠ ·)).head?.getD 0 ∈ vs ∧
      ((vs.mergeSort).destutter (· ≠ ·)).getLast?.getD 0 ∈ vs ∧
      ∀ v ∈ vs, ((vs.mergeSort).destutter (· ≠ ·)).head?.getD 0 ≤ v ∧
        v ≤ ((vs.mergeSort).destutter (· ≠ ·)).getLast?.getD 0 := by
  have hsub : ((vs.mergeSort).destutter (· ≠ ·)).Sublist vs.mergeSort := destutter_sublist ..
  have hperm : vs.mergeSort.Perm vs := List.mergeSort_perm ..
  have hsorted : ((vs.mergeSort).destutter (· ≠ ·)).Pairwise (· ≤ ·) := by
    refine List.Pairwise.sublist hsub ?_
    have := @List.pairwise_mergeSort Nat (fun a b => decide (a ≤ b))
      (fun a b c hab hbc => by simp only [decide_eq_true_eq] at *; omega)
      (fun a b => by simp only [Bool.or_eq_true, decide_eq_true_eq]; omega) vs
    simpa using this
  have hof : ∀ v ∈ (vs.mergeSort).destutter (· ≠ ·), v ∈ vs :=
    fun v hv => hperm.mem_iff.mp (hsub.mem hv)
  have hin : ∀ v ∈ vs, v ∈ (vs.mergeSort).destutter (· ≠ ·) :=
    fun v hv => mem_destutter (hperm.mem_iff.mpr hv)
  generalize (vs.mergeSort).destutter (· ≠ ·) = ws at *
  have hws : ws ≠ [] := by
    obtain ⟨v, hv⟩ := List.exists_mem_of_ne_nil vs hne
    exact List.ne_nil_of_mem (hin v hv)
  refine ⟨?_, ?_, fun v hv => ⟨?_, ?_⟩⟩
  · rw [List.head?_eq_some_head hws]
    exact hof _ (List.head_mem hws)
  · rw [List.getLast?_eq_some_getLast hws]
    exact hof _ (List.getLast_mem hws)
  · obtain ⟨lo, rest, rfl⟩ := List.exists_cons_of_ne_nil hws
    rcases mem_cons.mp (hin v hv) with rfl | hv
    · exact Nat.le_refl _
    · exact (List.pairwise_cons.mp hsorted).1 v hv
  · rw [List.getLast?_eq_some_getLast hws]
    have hmem := hin v hv
    rw [← List.dropLast_append_getLast hws] at hsorted hmem
    rcases List.mem_append.mp hmem with hv | hv
    · exact (List.pairwise_append.mp hsorted).2.2 v hv _ (by simp)
    · exact Nat.le_of_eq (by simpa using hv)

/-! ## Sorted lists as sets -/

section

variable {β : Type} [LinearOrder β]

/-- Sorted, with one element for each value. -/
def sorted (l : List β) : List β := (l.insertionSort (· ≤ ·)).destutter (· ≠ ·)

theorem mem_sorted {l : List β} {x : β} : x ∈ sorted l ↔ x ∈ l := by
  unfold sorted
  constructor
  · intro h
    exact (List.mem_insertionSort _).mp ((destutter_sublist ..).mem h)
  · intro h
    exact mem_destutter ((List.mem_insertionSort _).mpr h)

theorem pairwise_lt_of_chain {key : α → β} {l : List α} (hle : l.Pairwise fun a b => key a ≤ key b)
    (hne : l.IsChain fun a b => key a ≠ key b) : l.Pairwise fun a b => key a < key b := by
  have htrans : IsTrans α fun a b => key a < key b := ⟨fun _ _ _ h h' => lt_trans h h'⟩
  rw [← List.isChain_iff_pairwise]
  induction l with
  | nil => exact .nil
  | cons a l ih =>
    cases l with
    | nil => exact .singleton a
    | cons b l =>
      rw [List.isChain_cons_cons] at hne ⊢
      refine ⟨lt_of_le_of_ne ?_ hne.1, ih hle.of_cons hne.2⟩
      exact (List.pairwise_cons.mp hle).1 b (.head _)

theorem pairwise_sorted (l : List β) : (sorted l).Pairwise (· < ·) :=
  @pairwise_lt_of_chain _ _ _ id _
    ((List.pairwise_insertionSort (· ≤ ·) l).sublist (destutter_sublist ..))
    (List.isChain_destutter _ _)

/-! ## Sorted by a key, with the first element for each key -/

/-- A stable sort, and of neighbours with one key only the first. -/
def firsts (key : α → β) (l : List α) : List α :=
  (l.mergeSort fun a b => decide (key a ≤ key b)).destutter fun a b => key a ≠ key b

theorem pairwise_firsts (key : α → β) (l : List α) :
    (firsts key l).Pairwise fun a b => key a < key b := by
  have hsort := @List.pairwise_mergeSort α (fun a b => decide (key a ≤ key b))
    (fun a b c hab hbc => by
      rw [decide_eq_true_eq] at hab hbc ⊢
      exact le_trans hab hbc)
    (fun a b => by
      rw [Bool.or_eq_true, decide_eq_true_eq, decide_eq_true_eq]
      exact le_total _ _) l
  apply pairwise_lt_of_chain
  · exact (hsort.imp fun h => of_decide_eq_true h).sublist (destutter_sublist ..)
  · exact List.isChain_destutter _ _

theorem lookup_destutter {l : List (β × α)} (k : β) :
    (l.destutter fun a b => a.1 ≠ b.1).lookup k = l.lookup k := by
  have hcons : ∀ (m : List (β × α)) (a : β × α),
      (m.destutter' (fun a b => a.1 ≠ b.1) a).lookup k = (a :: m).lookup k := by
    intro m
    induction m with
    | nil =>
      intro a
      rfl
    | cons b m ih =>
      intro a
      rw [List.destutter'_cons]
      split
      · rw [lookup_cons, lookup_cons, ih b]
      · -- the neighbour with the same key is never the one that is found
        rename_i hab
        rw [ih a, lookup_cons, lookup_cons, lookup_cons, not_not.mp hab]
        cases k == b.1 <;> rfl
  cases l with
  | nil => rfl
  | cons a m => exact hcons m a

theorem lookup_eq_head_filter (l : List (β × α)) (k : β) :
    l.lookup k = ((l.filter fun p => p.1 = k).head?).map Prod.snd := by
  induction l with
  | nil => rfl
  | cons p l ih =>
    rw [lookup_cons, List.filter_cons]
    by_cases h : p.1 = k
    · rw [if_pos (decide_eq_true h), beq_iff_eq.mpr h.symm]
      rfl
    · rw [if_neg (by simpa using h), beq_eq_false_iff_ne.mpr (Ne.symm h)]
      exact ih

theorem lookup_firsts (l : List (β × α)) (k : β) : (firsts Prod.fst l).lookup k = l.lookup k := by
  unfold firsts
  rw [lookup_destutter, lookup_eq_head_filter, lookup_eq_head_filter, filter_mergeSort]
  · intro a b c hab hbc
    rw [decide_eq_true_eq] at hab hbc ⊢
    exact le_trans hab hbc
  · intro a b
    rw [Bool.or_eq_true, decide_eq_true_eq, decide_eq_true_eq]
    exact le_total _ _
  · intro a b ha hb
    rw [decide_eq_true_eq] at ha hb ⊢
    rw [ha, hb]

/-! ## Binary search -/

/-- An index of `k` among the `size` places of `l` from `lo` on. -/
def search (l : List β) (k : β) (lo size : Nat) : Option Nat :=
  if size = 0 then none
  else
    let mid := lo + size / 2
    match l[mid]? with
    | none => none
    | some x =>
      if x = k then some mid
      else if x < k then search l k (mid + 1) (size - size / 2 - 1)
      else search l k lo (size / 2)
termination_by size
decreasing_by all_goals omega

theorem getElem?_of_search {l : List β} {k : β} {lo size i : Nat}
    (h : search l k lo size = some i) : l[i]? = some k := by
  induction size using Nat.strong_induction_on generalizing lo with
  | _ size ih =>
    rw [search] at h
    split at h
    · cases h
    · dsimp only at h
      split at h
      · cases h
      · rename_i x hx
        split at h
        · rename_i hk
          cases h
          rw [hx, hk]
        · split at h
          · exact ih _ (by omega) h
          · exact ih _ (by omega) h

/-- Where the search finds nothing, `k` is at no place that it looked over. -/
theorem ne_of_search_none {l : List β} (hl : l.Pairwise (· < ·)) {k : β} {lo size : Nat}
    (hsize : lo + size ≤ l.length) (h : search l k lo size = none) :
    ∀ i, lo ≤ i → i < lo + size → l[i]? ≠ some k := by
  induction size using Nat.strong_induction_on generalizing lo with
  | _ size ih =>
    have hlt : ∀ {i j : Nat} {x y : β}, i < j → l[i]? = some x → l[j]? = some y → x < y := by
      intro i j x y hij hx hy
      obtain ⟨hi, rfl⟩ := List.getElem?_eq_some_iff.mp hx
      obtain ⟨hj, rfl⟩ := List.getElem?_eq_some_iff.mp hy
      exact List.pairwise_iff_getElem.mp hl i j hi hj hij
    intro i hlo hi hik
    rw [search] at h
    split at h
    · omega
    · dsimp only at h
      split at h
      · rename_i hnone
        rw [List.getElem?_eq_none_iff] at hnone
        omega
      · rename_i x hx
        split at h
        · cases h
        · rename_i hne
          rcases Nat.lt_trichotomy i (lo + size / 2) with hc | hc | hc
          · split at h
            · rename_i hxk
              exact absurd (hlt hc hik hx) (not_lt_of_gt hxk)
            · exact ih _ (by omega) (by omega) h i hlo (by omega) hik
          · rw [hc, hx] at hik
            exact hne (Option.some.inj hik)
          · split at h
            · exact ih _ (by omega) (by omega) h i (by omega) (by omega) hik
            · rename_i hxk
              exact hxk (hlt hc hx hik)

theorem search_eq_none_iff {l : List β} (hl : l.Pairwise (· < ·)) (k : β) :
    search l k 0 l.length = none ↔ k ∉ l := by
  constructor
  · intro h hk
    obtain ⟨i, hi⟩ := List.mem_iff_getElem?.mp hk
    have hlen := (List.getElem?_eq_some_iff.mp hi).1
    exact ne_of_search_none hl (by omega) h i (Nat.zero_le i) (by omega) hi
  · intro hk
    cases h : search l k 0 l.length with
    | none => rfl
    | some i => exact absurd (List.mem_of_getElem? (getElem?_of_search h)) hk

end

end Sorting
