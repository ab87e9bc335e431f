-- Association lists as finite maps: a key is read by `List.lookup`, a new
-- value for a key takes the place of the old one, and the order of the
-- entries does not matter when each key is there once.
import Mathlib.Data.List.Nodup
import Mathlib.Data.List.Perm.Basic

namespace Assoc

variable {κ α β : Type} [DecidableEq κ]

def keys (m : List (κ × α)) : List κ := m.map Prod.fst

/-- The map with `a` at `k`. -/
def insert (m : List (κ × α)) (k : κ) (a : α) : List (κ × α) :=
  (k, a) :: m.filter (·.1 ≠ k)

/-- The map without the keys of the list. -/
def without (m : List (κ × α)) (ks : List κ) : List (κ × α) := m.filter (·.1 ∉ ks)

theorem lookup_cons_ite (k j : κ) (a : α) (m : List (κ × α)) :
    ((j, a) :: m).lookup k = if k = j then some a else m.lookup k := by
  rw [List.lookup_cons]
  by_cases h : k = j
  · simp [h]
  · simp [h, beq_eq_false_iff_ne.mpr h]

variable {m : List (κ × α)} {k : κ}

theorem lookup_isSome : (m.lookup k).isSome ↔ k ∈ keys m := by
  induction m with
  | nil => simp [keys]
  | cons p m ih =>
    obtain ⟨j, a⟩ := p
    rw [lookup_cons_ite]
    by_cases h : k = j
    · simp [h, keys]
    · rw [if_neg h, ih]
      simp only [keys, List.map_cons, List.mem_cons, h, false_or]

theorem lookup_none : m.lookup k = none ↔ k ∉ keys m := by
  rw [← lookup_isSome]
  cases m.lookup k <;> simp

theorem mem_of_lookup {a : α} (h : m.lookup k = some a) : (k, a) ∈ m := by
  induction m with
  | nil => simp at h
  | cons p m ih =>
    obtain ⟨j, b⟩ := p
    rw [lookup_cons_ite] at h
    split at h
    · rename_i hk
      cases h
      exact hk ▸ (.head _)
    · exact .tail _ (ih h)

/-- Where each key is there once, a lookup finds every entry. -/
theorem lookup_iff_mem (hn : (keys m).Nodup) {a : α} : m.lookup k = some a ↔ (k, a) ∈ m := by
  refine ⟨mem_of_lookup, ?_⟩
  intro h
  induction m with
  | nil => cases h
  | cons p m ih =>
    obtain ⟨j, b⟩ := p
    simp only [keys, List.map_cons, List.nodup_cons] at hn
    rw [lookup_cons_ite]
    rcases List.mem_cons.mp h with h | h
    · cases h
      rw [if_pos rfl]
    · have hne : k ≠ j := fun e => hn.1 (List.mem_map.mpr ⟨_, h, e⟩)
      rw [if_neg hne]
      exact ih hn.2 h

/-- The order of the entries does not matter. -/
theorem lookup_perm {m' : List (κ × α)} (hn : (keys m).Nodup) (hp : m'.Perm m) (k : κ) :
    m'.lookup k = m.lookup k := by
  have hn' : (keys m').Nodup := ((hp.map Prod.fst).nodup_iff).mpr hn
  apply Option.ext
  intro a
  rw [lookup_iff_mem hn', lookup_iff_mem hn]
  exact hp.mem_iff

theorem lookup_filter (m : List (κ × α)) (p : κ → Prop) [DecidablePred p] (k : κ) :
    (m.filter fun e => p e.1).lookup k = if p k then m.lookup k else none := by
  induction m with
  | nil => simp
  | cons e m ih =>
    obtain ⟨j, a⟩ := e
    rw [List.filter_cons]
    by_cases hj : p j
    · rw [if_pos (by simpa using hj), lookup_cons_ite, lookup_cons_ite, ih]
      by_cases hk : k = j
      · subst hk; simp [hj]
      · simp [hk]
    · rw [if_neg (by simpa using hj), lookup_cons_ite, ih]
      by_cases hk : k = j
      · subst hk; simp [hj]
      · simp [hk]

theorem lookup_insert (m : List (κ × α)) (j k : κ) (a : α) :
    (insert m j a).lookup k = if k = j then some a else m.lookup k := by
  unfold insert
  rw [lookup_cons_ite, lookup_filter m (· ≠ j)]
  split
  · rfl
  · rfl

theorem lookup_without (m : List (κ × α)) (ks : List κ) (k : κ) :
    (without m ks).lookup k = if k ∈ ks then none else m.lookup k := by
  unfold without
  rw [lookup_filter m (· ∉ ks)]
  by_cases h : k ∈ ks
  · simp [h]
  · simp [h]

theorem lookup_map (m : List (κ × α)) (f : α → β) (k : κ) :
    (m.map fun e => (e.1, f e.2)).lookup k = (m.lookup k).map f := by
  induction m with
  | nil => rfl
  | cons e m ih =>
    obtain ⟨j, a⟩ := e
    rw [List.map_cons, lookup_cons_ite, lookup_cons_ite, ih]
    split <;> rfl

omit [DecidableEq κ] in
theorem keys_map (m : List (κ × α)) (f : α → β) : keys (m.map fun e => (e.1, f e.2)) = keys m := by
  simp [keys, Function.comp_def]

/-- Entries inserted from the last to the first: the first one of a key stays. -/
theorem lookup_foldr_insert (m m' : List (κ × α)) (k : κ) :
    (m.foldr (fun e acc => insert acc e.1 e.2) m').lookup k = (m.lookup k).or (m'.lookup k) := by
  induction m with
  | nil => simp
  | cons e m ih =>
    obtain ⟨j, a⟩ := e
    rw [List.foldr_cons, lookup_insert, lookup_cons_ite, ih]
    split <;> rfl

theorem mem_foldr_insert {m' : List (κ × α)} {e : κ × α}
    (h : e ∈ m.foldr (fun e acc => insert acc e.1 e.2) m') : e ∈ m ∨ e ∈ m' := by
  induction m with
  | nil => exact .inr h
  | cons d m ih =>
    rw [List.foldr_cons, insert] at h
    rcases List.mem_cons.mp h with h | h
    · exact .inl (h ▸ (.head _))
    · rcases ih (List.mem_of_mem_filter h) with h | h
      · exact .inl (.tail _ h)
      · exact .inr h

omit [DecidableEq κ] in
theorem nodup_filter (h : (keys m).Nodup) (p : κ × α → Bool) : (keys (m.filter p)).Nodup := by
  unfold keys at *
  exact h.sublist (List.filter_sublist.map _)

theorem nodup_insert (h : (keys m).Nodup) (k : κ) (a : α) : (keys (insert m k a)).Nodup := by
  refine List.nodup_cons.mpr ⟨?_, nodup_filter h _⟩
  intro hk
  obtain ⟨e, he, hek⟩ := List.mem_map.mp hk
  simp [hek] at he

end Assoc
