-- Labels that wait for the next node: a sequence of labels and nodes, and the
-- table that sends each label to the node after it.
import Mathlib.Data.List.Nodup

namespace Anchors

variable {ℓ ν : Type} [DecidableEq ℓ]

/-- An item is a label, or a statement that may have a node. -/
inductive Item (ℓ ν : Type) where
  | label (l : ℓ)
  | node (n : Option ν)

/-- The labels that wait, and the table; the newest entry of a label counts. -/
structure State (ℓ ν : Type) where
  pending : List ℓ
  table : List (ℓ × ν)

/-- The table after all waiting labels have been given a node. -/
def claim (pending : List ℓ) (n : ν) (table : List (ℓ × ν)) : List (ℓ × ν) :=
  pending.foldl (fun table l => (l, n) :: table) table

def step (s : State ℓ ν) : Item ℓ ν → State ℓ ν
  | .label l => { s with pending := s.pending ++ [l] }
  | .node (some n) => ⟨[], claim s.pending n s.table⟩
  | .node none => s

def run (s : State ℓ ν) (items : List (Item ℓ ν)) : State ℓ ν := items.foldl step s

/-- A statement has a node whenever a label waits for it. -/
def Prompt (s : State ℓ ν) : List (Item ℓ ν) → Prop
  | [] => True
  | .node none :: rest => s.pending = [] ∧ Prompt s rest
  | i :: rest => Prompt (step s i) rest

def labels (items : List (Item ℓ ν)) : List ℓ :=
  items.filterMap fun
    | .label l => some l
    | .node _ => none

/-- After labels only, the node `n`. -/
def Leads (n : ν) : List (Item ℓ ν) → Prop
  | .label _ :: rest => Leads n rest
  | .node (some m) :: _ => m = n
  | _ => False

/-- The label `l` stands before the node `n`, with labels only between them. -/
def Follows (l : ℓ) (n : ν) : List (Item ℓ ν) → Prop
  | .label m :: rest => (m = l ∧ Leads n rest) ∨ Follows l n rest
  | .node _ :: rest => Follows l n rest
  | [] => False

theorem lookup_cons_ne {l m : ℓ} (h : l ≠ m) (n : ν) (table : List (ℓ × ν)) :
    ((m, n) :: table).lookup l = table.lookup l := by
  simp [List.lookup_cons, beq_eq_false_iff_ne.mpr h]

theorem lookup_claim_of_not_mem {pending : List ℓ} {l : ℓ} (h : l ∉ pending) (n : ν)
    (table : List (ℓ × ν)) : (claim pending n table).lookup l = table.lookup l := by
  induction pending generalizing table with
  | nil => rfl
  | cons m pending ih =>
    have hm : l ≠ m := fun heq => h (by simp [heq])
    show (claim pending n ((m, n) :: table)).lookup l = table.lookup l
    rw [ih fun hmem => h (List.mem_cons_of_mem m hmem), lookup_cons_ne hm]

theorem lookup_claim_of_mem {pending : List ℓ} {l : ℓ} (h : l ∈ pending) (n : ν)
    (table : List (ℓ × ν)) : (claim pending n table).lookup l = some n := by
  induction pending generalizing table with
  | nil => cases h
  | cons m pending ih =>
    by_cases hl : l ∈ pending
    · exact ih hl _
    · obtain rfl : l = m := (List.mem_cons.mp h).resolve_right hl
      show (claim pending n ((l, n) :: table)).lookup l = some n
      rw [lookup_claim_of_not_mem hl]
      simp

/-! ## The table after a run -/

variable {s : State ℓ ν} {items : List (Item ℓ ν)} {l : ℓ} {n : ν}

/-- A label that neither waits nor is declared keeps its entry. -/
theorem lookup_run_of_absent (hpend : l ∉ s.pending) (hdecl : l ∉ labels items) :
    (run s items).table.lookup l = s.table.lookup l := by
  induction items generalizing s with
  | nil => rfl
  | cons i rest ih =>
    cases i with
    | label m =>
      have hm : ¬ l = m := fun heq => hdecl (by simp [labels, heq])
      refine ih (s := step s (.label m)) ?_ fun h => hdecl (by simp_all [labels])
      simp [step, hpend, hm]
    | node o =>
      have hrest : l ∉ labels rest := fun h => hdecl (by simpa [labels] using h)
      cases o with
      | none => exact ih hpend hrest
      | some m =>
        show (run (step s (.node (some m))) rest).table.lookup l = _
        rw [ih (s := step s (.node (some m))) (by simp [step]) hrest]
        exact lookup_claim_of_not_mem hpend m s.table

/-- A waiting label gets the first node. -/
theorem lookup_run_of_pending (hpend : l ∈ s.pending) (hdecl : l ∉ labels items)
    (hlead : Leads n items) : (run s items).table.lookup l = some n := by
  induction items generalizing s with
  | nil => exact hlead.elim
  | cons i rest ih =>
    cases i with
    | label m =>
      exact ih (s := step s (.label m)) (by simp [step, hpend])
        (fun h => hdecl (by simp_all [labels])) hlead
    | node o =>
      have hrest : l ∉ labels rest := fun h => hdecl (by simpa [labels] using h)
      cases o with
      | none => exact hlead.elim
      | some m =>
        obtain rfl : m = n := hlead
        show (run (step s (.node (some m))) rest).table.lookup l = some m
        rw [lookup_run_of_absent (s := step s (.node (some m))) (by simp [step]) hrest]
        exact lookup_claim_of_mem hpend m s.table

omit [DecidableEq ℓ] in
theorem mem_labels_of_follows (h : Follows l n items) : l ∈ labels items := by
  induction items with
  | nil => exact h.elim
  | cons i rest ih =>
    cases i with
    | label m =>
      rcases h with ⟨rfl, _⟩ | h
      · simp [labels]
      · have := ih h
        simp_all [labels]
    | node o =>
      have := ih h
      simpa [labels] using this

/-- A declared label gets the node that follows it. -/
theorem lookup_run_of_follows (hpend : l ∉ s.pending) (hnodup : (labels items).Nodup)
    (hfollows : Follows l n items) : (run s items).table.lookup l = some n := by
  induction items generalizing s with
  | nil => exact hfollows.elim
  | cons i rest ih =>
    cases i with
    | label m =>
      have hnodup' : m ∉ labels rest ∧ (labels rest).Nodup := by
        simpa [labels, List.nodup_cons] using hnodup
      rcases hfollows with ⟨rfl, hlead⟩ | hfollows
      · exact lookup_run_of_pending (s := step s (.label m)) (by simp [step]) hnodup'.1 hlead
      · have hl : l ∈ labels rest := mem_labels_of_follows hfollows
        have hm : ¬ l = m := fun heq => hnodup'.1 (heq ▸ hl)
        exact ih (s := step s (.label m)) (by simp [step, hpend, hm]) hnodup'.2 hfollows
    | node o =>
      have hnodup' : (labels rest).Nodup := by simpa [labels] using hnodup
      cases o with
      | none => exact ih hpend hnodup' hfollows
      | some m => exact ih (s := step s (.node (some m))) (by simp [step]) hnodup' hfollows

omit [DecidableEq ℓ] in
/-- With only labels left, or none, the table stays. -/
theorem table_run_of_unled (hpend : s.pending ≠ []) (hprompt : Prompt s items)
    (hlead : ∀ n, ¬ Leads n items) : (run s items).table = s.table := by
  induction items generalizing s with
  | nil => rfl
  | cons i rest ih =>
    cases i with
    | label m => exact ih (s := step s (.label m)) (by simp [step]) hprompt fun n h => hlead n h
    | node o =>
      cases o with
      | none => exact absurd hprompt.1 hpend
      | some m => exact absurd rfl (hlead m)

/-- A label that no node follows keeps its entry. -/
theorem lookup_run_of_unfollowed (hpend : l ∉ s.pending) (hprompt : Prompt s items)
    (hnone : ∀ n, ¬ Follows l n items) :
    (run s items).table.lookup l = s.table.lookup l := by
  induction items generalizing s with
  | nil => rfl
  | cons i rest ih =>
    cases i with
    | label m =>
      by_cases hm : m = l
      · show (run (step s (.label m)) rest).table.lookup l = _
        rw [table_run_of_unled (s := step s (.label m)) (by simp [step]) hprompt
          fun n hn => hnone n (.inl ⟨hm, hn⟩)]
        rfl
      · have hlm : ¬ l = m := fun heq => hm heq.symm
        exact ih (s := step s (.label m)) (by simp [step, hpend, hlm]) hprompt
          fun n hn => hnone n (.inr hn)
    | node o =>
      cases o with
      | none => exact ih hpend hprompt.2 hnone
      | some m =>
        show (run (step s (.node (some m))) rest).table.lookup l = _
        rw [ih (s := step s (.node (some m))) (by simp [step]) hprompt hnone]
        exact lookup_claim_of_not_mem hpend m s.table

end Anchors
