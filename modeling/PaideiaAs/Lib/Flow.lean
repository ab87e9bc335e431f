-- Code with labels: a list of items, where an item goes on to the next one or
-- jumps to a label. A label that is bound twice stands where it was bound last.
import Mathlib.Logic.Relation
import Mathlib.Data.List.Basic

namespace Flow

open Relation (ReflTransGen)
open Relation.ReflTransGen (cases_head single)

/-- What an item does. -/
inductive Effect (L S : Type) where
  | next (s : S)
  | jump (label : L) (s : S)
  | stuck

/-- The labels that items bind, and what items do to a state. -/
structure Machine (I L S : Type) where
  label : I → Option L
  act : I → S → Effect L S

namespace Machine

variable {I L S : Type} (M : Machine I L S)

/-- The labels that a piece of code binds. -/
def labels (code : List I) : List L := code.flatMap fun i => (M.label i).toList

section

variable {M} {xs ys : List I}

@[simp] theorem labels_nil : M.labels [] = [] := rfl

@[simp] theorem labels_cons (i : I) : M.labels (i :: xs) = (M.label i).toList ++ M.labels xs := rfl

@[simp] theorem labels_append : M.labels (xs ++ ys) = M.labels xs ++ M.labels ys :=
  List.flatMap_append ..

end

variable [DecidableEq L]

/-- The code behind the last item that binds the label. -/
def target (l : L) : List I → Option (List I)
  | [] => none
  | i :: rest =>
    match target l rest with
    | some t => some t
    | none => if M.label i = some l then some rest else none

/-- One item of the program `P`. The state stands before the rest of the code. -/
def step (P : List I) : List I × S → Option (List I × S)
  | ([], _) => none
  | (i :: rest, s) =>
    match M.act i s with
    | .next s' => some (rest, s')
    | .jump l s' => (M.target l P).map fun t => (t, s')
    | .stuck => none

/-- A run of any number of steps. -/
def Runs (P : List I) : List I × S → List I × S → Prop :=
  ReflTransGen fun a b => M.step P a = some b

variable {M} {P xs ys rest t : List I} {i : I} {l : L} {s s' : S}

theorem target_none (h : l ∉ M.labels ys) : M.target l ys = none := by
  induction ys with
  | nil => rfl
  | cons i rest ih =>
    rw [labels_cons, List.mem_append, not_or] at h
    have hhere : M.label i ≠ some l := by
      intro heq
      simp [heq] at h
    rw [target, ih h.2]
    simp [hhere]

theorem target_of_tail (h : M.target l ys = some t) : M.target l (xs ++ ys) = some t := by
  induction xs with
  | nil => exact h
  | cons i xs ih => rw [List.cons_append, target, ih]

/-- The item binds the label, and nothing behind it does. -/
theorem target_here (hi : M.label i = some l) (h : l ∉ M.labels rest) :
    M.target l (xs ++ i :: rest) = some rest := by
  refine target_of_tail ?_
  rw [target, target_none h, if_pos hi]

/-! ## Runs -/

theorem Runs.refl (c : List I × S) : M.Runs P c c := ReflTransGen.refl

theorem Runs.trans {a b c : List I × S} (h : M.Runs P a b) (h' : M.Runs P b c) : M.Runs P a c :=
  ReflTransGen.trans h h'

theorem Runs.next (h : M.act i s = .next s') : M.Runs P (i :: rest, s) (rest, s') := by
  refine single ?_
  simp [step, h]

theorem Runs.jump (h : M.act i s = .jump l s') (ht : M.target l P = some t) :
    M.Runs P (i :: rest, s) (t, s') := by
  refine single ?_
  simp [step, h, ht]

theorem Runs.of_end {c : List I × S} (h : M.Runs P ([], s) c) : c = ([], s) := by
  rcases cases_head h with h | ⟨d, hd, _⟩
  · exact h.symm
  · simp [step] at hd

/-- A run to the end passes through every point of the run. -/
theorem Runs.to_end {c d : List I × S} (h : M.Runs P c d) (h' : M.Runs P c ([], s')) :
    M.Runs P d ([], s') := by
  induction h using ReflTransGen.head_induction_on with
  | refl => exact h'
  | head hab _ ih =>
    rcases cases_head h' with h | ⟨d, hd, hrest⟩
    · subst h
      simp [step] at hab
    · obtain rfl := Option.some.inj (hab.symm.trans hd)
      exact ih hrest

/-- Code that has run to its end is in one state. -/
theorem Runs.unique {c : List I × S} {s₁ s₂ : S} (h₁ : M.Runs P c ([], s₁))
    (h₂ : M.Runs P c ([], s₂)) : s₁ = s₂ := by
  have := Runs.of_end (h₂.to_end h₁)
  simpa using this

end Machine

end Flow
