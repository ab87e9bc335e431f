-- Chains of links: a place leads to the next one or to the end, and each link
-- carries a set. A walk along the links stops at the end, at a place without a
-- link or at a place that it has come by before.
import Mathlib.Data.List.Nodup
import Mathlib.Data.Set.Basic

namespace Chains

open Set (empty_union union_assoc union_empty)

/-- The link of a place: what it carries, and where it leads. -/
def Links (α β : Type) := α → Option (Set β × Option α)

variable {α β : Type} {next first second comp : Links α β} {t m e e' : Option α}
  {vs ws : List α} {A B C : Set β}

/-! ## Paths -/

/-- The places gone by, and all that their links carry. -/
inductive Path (next : Links α β) : Option α → List α → Set β → Option α → Prop
  | nil (t : Option α) : Path next t [] ∅ t
  | cons {v : α} {A : Set β} {t : Option α} {vs : List α} {B : Set β} {e : Option α} :
    next v = some (A, t) → Path next t vs B e → Path next (some v) (v :: vs) (A ∪ B) e

theorem Path.append (h : Path next t vs A m) (h' : Path next m ws B e) :
    Path next t (vs ++ ws) (A ∪ B) e := by
  induction h with
  | nil t => rwa [empty_union]
  | cons hv _ ih =>
    rw [union_assoc]
    exact .cons hv (ih h')

theorem Path.split (h : Path next t (vs ++ ws) C e) :
    ∃ A m B, Path next t vs A m ∧ Path next m ws B e ∧ C = A ∪ B := by
  induction vs generalizing t C with
  | nil => exact ⟨∅, t, C, .nil t, h, (empty_union C).symm⟩
  | cons v vs ih =>
    cases h with
    | cons hv h =>
      obtain ⟨A, m, B, h1, h2, rfl⟩ := ih h
      exact ⟨_, m, B, .cons hv h1, h2, (union_assoc _ A B).symm⟩

theorem Path.linked (h : Path next t vs A e) : ∀ v ∈ vs, next v ≠ none := by
  induction h with
  | nil t =>
    intro v hv
    cases hv
  | cons hv _ ih =>
    intro w hw
    rcases List.mem_cons.mp hw with rfl | hw
    · rw [hv]
      exact Option.some_ne_none _
    · exact ih w hw

/-- Of two paths from one place, one goes on where the other ends. -/
theorem Path.compare (h : Path next t vs A e) (h' : Path next t ws B e') :
    (∃ us C, ws = vs ++ us ∧ B = A ∪ C ∧ Path next e us C e') ∨
      ∃ us C, vs = ws ++ us ∧ A = B ∪ C ∧ Path next e' us C e := by
  induction h generalizing ws B with
  | nil t => exact .inl ⟨ws, B, rfl, (empty_union B).symm, h'⟩
  | cons hv h ih =>
    cases h' with
    | nil => exact .inr ⟨_, _, rfl, (empty_union _).symm, .cons hv h⟩
    | cons hw h' =>
      rw [hv] at hw
      cases hw
      rcases ih h' with ⟨us, C, rfl, rfl, hus⟩ | ⟨us, C, rfl, rfl, hus⟩
      · exact .inl ⟨us, C, rfl, (union_assoc ..).symm, hus⟩
      · exact .inr ⟨us, C, rfl, (union_assoc ..).symm, hus⟩

theorem Path.of_eq (h : Path first t vs A e) (heq : ∀ v ∈ vs, next v = first v) :
    Path next t vs A e := by
  induction h with
  | nil t => exact .nil t
  | cons hv _ ih =>
    apply Path.cons
    · rw [heq _ List.mem_cons_self, hv]
    · exact ih fun w hw => heq w (.tail _ hw)

/-! ## Walks -/

/-- A path without a place twice, which ends where it has to. -/
structure Walk (next : Links α β) (t : Option α) (vs : List α) (A : Set β) (e : Option α) :
    Prop where
  path : Path next t vs A e
  nodup : vs.Nodup
  stops : ∀ v, e = some v → next v = none ∨ v ∈ vs

theorem Walk.nil_of_unlinked {v : α} (h : next v = none) : Walk next (some v) [] ∅ (some v) := by
  refine ⟨.nil _, List.nodup_nil, ?_⟩
  intro w hw
  cases hw
  exact .inl h

/-- A walk does not go past its end. -/
theorem Walk.no_more (h : Walk next t vs A e) {us : List α} (h' : Path next e us B e')
    (hnodup : (vs ++ us).Nodup) : us = [] := by
  cases h' with
  | nil => rfl
  | cons hv _ =>
    rcases h.stops _ rfl with hnone | hmem
    · rw [hv] at hnone
      cases hnone
    · exact absurd rfl ((List.nodup_append.mp hnodup).2.2 _ hmem _ (.head _))

theorem Walk.unique (h : Walk next t vs A e) (h' : Walk next t ws B e') :
    vs = ws ∧ A = B ∧ e = e' := by
  rcases h.path.compare h'.path with ⟨us, C, rfl, rfl, hus⟩ | ⟨us, C, rfl, rfl, hus⟩
  · obtain rfl := h.no_more hus h'.nodup
    cases hus
    exact ⟨(List.append_nil vs).symm, (union_empty A).symm, rfl⟩
  · obtain rfl := h'.no_more hus h.nodup
    cases hus
    exact ⟨List.append_nil ws, union_empty B, rfl⟩

/-- From its end a walk goes no further than round the loop it came to. -/
theorem Walk.again (h : Walk next t vs A e) : ∃ ws B, Walk next e ws B e ∧ B ⊆ A := by
  cases e with
  | none =>
    refine ⟨[], ∅, ⟨.nil none, List.nodup_nil, ?_⟩, Set.empty_subset A⟩
    intro v hv
    cases hv
  | some v =>
    rcases h.stops v rfl with hnone | hmem
    · exact ⟨[], ∅, .nil_of_unlinked hnone, Set.empty_subset A⟩
    · obtain ⟨before, loop, rfl⟩ := List.append_of_mem hmem
      obtain ⟨A', m, B, -, hloop, rfl⟩ := h.path.split
      have hm : m = some v := by
        cases hloop
        rfl
      rw [hm] at hloop
      refine ⟨v :: loop, B, ⟨hloop, (List.nodup_append.mp h.nodup).2.1, ?_⟩, Set.subset_union_right⟩
      intro w hw
      cases hw
      exact .inr (.head _)

/-! ## Two sets of links, one after the other -/

/-- A link of `first` is followed to the end of the walk in `second`; where
`first` has none, the link of `second` is kept. -/
structure Composes (first second comp : Links α β) : Prop where
  linked : ∀ v A t, first v = some (A, t) →
    ∃ us B e, Walk second t us B e ∧ comp v = some (A ∪ B, e)
  kept : ∀ v, first v = none → comp v = second v

/-- A walk in `first` whose later places have no link in `second`, and the walk
in `second` from its end. -/
theorem Composes.path (hc : Composes first second comp) (h : Path first t vs A e)
    (hne : vs ≠ []) (hapart : ∀ w ∈ vs.tail, second w = none) (h2 : Walk second e ws B e') :
    Path comp t vs (A ∪ B) e' := by
  induction h with
  | nil t => exact absurd rfl hne
  | @cons v A t vs A' e hv h ih =>
    obtain ⟨us, B', m, hw, hcomp⟩ := hc.linked v A t hv
    cases h with
    | nil =>
      obtain ⟨-, rfl, rfl⟩ := hw.unique h2
      have hpath := Path.cons hcomp (.nil m)
      rwa [union_empty] at hpath ⊢
    | @cons w _ _ vs _ _ hw' h' =>
      obtain ⟨-, rfl, rfl⟩ := hw.unique (.nil_of_unlinked (hapart w (.head _)))
      rw [union_empty] at hcomp
      rw [union_assoc]
      apply Path.cons hcomp
      exact ih (List.cons_ne_nil _ _) (fun u hu => hapart u (.tail _ hu)) h2

/-- From `t`, no link of one set stands in the way of the other: `first` has no
link on the walk in `second`; or no place of the walk in `first`, its start
apart, has a link in `second`, and from the end of both walks `second` leads to
no new link of `first`. -/
inductive Clear (first second : Links α β) (t : Option α) : Prop
  | past {us : List α} {B : Set β} {e : Option α} (h2 : Walk second t us B e)
    (free : ∀ u, u ∈ us ∨ e = some u → first u = none)
  | back {v w : α} {vs us : List α} {A B : Set β} {e : Option α} (h1 : Walk first t (v :: vs) A e)
    (h2 : Walk second e us B (some w)) (apart : ∀ u ∈ vs, second u = none) (hmem : w ∈ v :: vs)
  | on {v : α} {vs us ws : List α} {A B C : Set β} {e e' : Option α}
    (h1 : Walk first t (v :: vs) A e) (h2 : Walk second e us B e')
    (apart : ∀ u ∈ vs, second u = none) (h3 : Walk second e' ws C e')
    (free : ∀ u, u ∈ ws ∨ e' = some u → first u = none)

/-- What `second` links alone is a walk of both. -/
theorem Composes.walk_free (hc : Composes first second comp) (h : Walk second t ws B e)
    (free : ∀ u, u ∈ ws ∨ e = some u → first u = none) : Walk comp t ws B e := by
  refine ⟨h.path.of_eq fun v hv => hc.kept v (free v (.inl hv)), h.nodup, ?_⟩
  intro v hv
  rw [hc.kept v (free v (.inr hv))]
  exact h.stops v hv

theorem Composes.walk (hc : Composes first second comp) (hclear : Clear first second t)
    (h1 : Walk first t vs A e) (h2 : Walk second e ws B e') :
    ∃ us, Walk comp t us (A ∪ B) e' := by
  cases hclear with
  | @past us B' m h2' free =>
    have hfirst : Walk first t [] ∅ t := by
      refine ⟨.nil t, List.nodup_nil, ?_⟩
      rintro v rfl
      apply Or.inl
      cases h2'.path with
      | nil => exact free v (.inr rfl)
      | cons _ _ => exact free v (.inl (.head _))
    obtain ⟨-, rfl, rfl⟩ := hfirst.unique h1
    obtain ⟨-, rfl, rfl⟩ := h2'.unique h2
    rw [empty_union]
    exact ⟨us, hc.walk_free h2' free⟩
  | back h1' h2' apart hmem =>
    obtain ⟨rfl, rfl, rfl⟩ := h1'.unique h1
    obtain ⟨-, rfl, rfl⟩ := h2'.unique h2
    refine ⟨_, hc.path h1.path (List.cons_ne_nil _ _) apart h2, h1.nodup, ?_⟩
    intro u hu
    cases hu
    exact .inr hmem
  | @on v vs' us ws' _ _ C _ _ h1' h2' apart h3 free =>
    obtain ⟨rfl, rfl, rfl⟩ := h1'.unique h1
    obtain ⟨-, rfl, rfl⟩ := h2.unique h2'
    have hsub : C ⊆ B := by
      obtain ⟨us', B', hagain, hle⟩ := h2.again
      obtain ⟨-, rfl, -⟩ := hagain.unique h3
      exact hle
    have hfree := hc.walk_free h3 free
    have hpath := (hc.path h1.path (List.cons_ne_nil _ _) apart h2).append hfree.path
    rw [union_assoc, Set.union_eq_self_of_subset_right hsub] at hpath
    refine ⟨v :: vs' ++ ws', hpath, ?_, ?_⟩
    · apply h1.nodup.append h3.nodup
      intro u hu hu'
      exact h1.path.linked u hu (free u (.inl hu'))
    · intro u hu
      rcases hfree.stops u hu with h | h
      · exact .inl h
      · exact .inr (List.mem_append_right _ h)

end Chains
