-- The stratification of a program: its predicates in name order, the graph
-- of their dependencies, its components, the test for a negated edge inside
-- a component, and the strata lifted over the edges between components.
import PaideiaAs.ShellDatalog.Ast
import PaideiaAs.ShellDatalog.Components
import PaideiaAs.Lib.Assoc
import Mathlib.Data.String.Basic

open Assoc Relation

namespace paideia_as_shell_datalog

inductive StratificationError where
  | CycleThroughNegation (cycle : List String)
  deriving DecidableEq

/-- The order in which a hash map is walked: some order of its entries. -/
structure HashOrder (α : Type) where
  order : List α → List α
  perm : ∀ l, (order l).Perm l

/-- The walk in the order of the list. -/
def HashOrder.plain (α : Type) : HashOrder α where
  order := fun l => l
  perm := fun _ => List.Perm.refl _

/-- The entries of the map `scc_edges`. -/
abbrev SccEdge := (Nat × Nat) × Bool

namespace Program

def preds (p : Program) : List String :=
  p.facts.map Atom.predicate ++
    p.rules.flatMap fun rule => rule.head.predicate :: rule.body.map fun goal => goal.atom.predicate

def edges (p : Program) : List (String × String × Bool) :=
  p.rules.flatMap fun rule =>
    rule.body.map fun goal => (goal.atom.predicate, rule.head.predicate, goal.is_negated)

/-- The set of predicates, sorted. -/
def pred_list (p : Program) : List String := p.preds.dedup.insertionSort (· ≤ ·)

def pred_index (p : Program) (pred : String) : Nat := p.pred_list.idxOf pred

def adj (p : Program) : Adj :=
  p.edges.foldl (fun adj e => Function.update adj (p.pred_index e.1)
      (adj (p.pred_index e.1) ++ [(p.pred_index e.2.1, e.2.2)]))
    fun _ => []

end Program

/-- The component of each node. -/
def scc_of (sccs : List (List Nat)) : Nat → Nat :=
  sccs.zipIdx.foldl
    (fun tab e => e.1.foldl (fun tab node => Function.update tab node e.2) tab) fun _ => 0

def negated_inside (adj : Adj) (scc : List Nat) : Bool :=
  scc.any fun node =>
    (adj node).any fun e =>
      e.2 && scc.contains e.1 && (decide (scc.length > 1) || (scc.length == 1 && e.1 == node))

/-- The entry of the key, made as `false` if it is not there, becomes `true`
for a negated edge. -/
def mark_entry {κ : Type} [DecidableEq κ] (m : List (κ × Bool)) (k : κ) (negated : Bool) :
    List (κ × Bool) :=
  insert m k ((m.lookup k).getD false || negated)

/-- One edge of the graph, put on the map of edges between components. -/
def add_edge (scc_of : Nat → Nat) (u : Nat) (m : List SccEdge) (e : Nat × Bool) : List SccEdge :=
  if scc_of u = scc_of e.1 then m else mark_entry m (scc_of u, scc_of e.1) e.2

/-- The edges between components; a pair with a negated edge counts as
negated. -/
def scc_edges (n : Nat) (adj : Adj) (scc_of : Nat → Nat) : List SccEdge :=
  (List.range n).foldl (fun m u => (adj u).foldl (add_edge scc_of u) m) []

/-- One edge of a pass: the strata, and whether one changed. -/
def relax (st : (Nat → Nat) × Bool) (e : SccEdge) : (Nat → Nat) × Bool :=
  let delta := if e.2 then 1 else 0
  let candidate := st.1 e.1.1 + delta
  if candidate > st.1 e.1.2 then (Function.update st.1 e.1.2 candidate, true) else st

/-- At most so many passes over the edges, until one changes nothing. -/
def lift_strata (edges : List SccEdge) : Nat → (Nat → Nat) → (Nat → Nat)
  | 0, scc_stratum => scc_stratum
  | k + 1, scc_stratum =>
    let (scc_stratum, changed) := edges.foldl relax (scc_stratum, false)
    if changed then lift_strata edges k scc_stratum else scc_stratum

/-- The stratum of each predicate, as the map from names to strata. -/
abbrev Strata := List (String × Nat)

def compute_strata (fuel : Nat) (hash : HashOrder SccEdge) (p : Program) :
    Outcome (Except StratificationError Strata) := do
  let n := p.pred_list.length
  let sccs ← tarjan_sccs fuel n p.adj
  match sccs.find? (negated_inside p.adj) with
  | some scc => do
    let cycle ← scc.mapM fun i => Outcome.expect p.pred_list[i]?
    .ok (.error (.CycleThroughNegation (cycle.insertionSort (· ≤ ·))))
  | none =>
    let edges := hash.order (scc_edges n p.adj (scc_of sccs))
    let scc_stratum := lift_strata edges sccs.length fun _ => 0
    .ok (.ok (p.pred_list.zipIdx.map fun e => (e.1, scc_stratum (scc_of sccs e.2))))

/-! ## The graph over node numbers is the graph of the program -/

namespace Program

variable {p : Program} {src tgt pred : String} {neg : Bool}

theorem mem_preds : pred ∈ p.preds ↔ p.Mentions pred := by
  unfold preds Mentions
  simp only [List.mem_append, List.mem_map, List.mem_flatMap, List.mem_cons]
  constructor
  · rintro (h | ⟨rule, hr, rfl | ⟨goal, hg, rfl⟩⟩)
    · exact .inl h
    · exact .inr (.inl ⟨rule, hr, rfl⟩)
    · exact .inr (.inr ⟨rule, hr, goal, hg, rfl⟩)
  · rintro (h | ⟨rule, hr, rfl⟩ | ⟨rule, hr, goal, hg, rfl⟩)
    · exact .inl h
    · exact .inr ⟨rule, hr, .inl rfl⟩
    · exact .inr ⟨rule, hr, .inr ⟨goal, hg, rfl⟩⟩

theorem mem_pred_list : pred ∈ p.pred_list ↔ p.Mentions pred := by
  unfold pred_list
  rw [List.mem_insertionSort, List.mem_dedup, mem_preds]

theorem pred_list_nodup (p : Program) : p.pred_list.Nodup := by
  unfold pred_list
  exact ((List.perm_insertionSort _ _).nodup_iff).mpr (List.nodup_dedup _)

theorem mem_edges : (src, tgt, neg) ∈ p.edges ↔ p.Depends src tgt neg := by
  unfold edges Depends
  simp only [List.mem_flatMap, List.mem_map, Prod.mk.injEq]

theorem Depends.mentions (h : p.Depends src tgt neg) : p.Mentions src ∧ p.Mentions tgt := by
  obtain ⟨rule, hr, goal, hg, rfl, rfl, _⟩ := h
  exact ⟨.inr (.inr ⟨rule, hr, goal, hg, rfl⟩), .inr (.inl ⟨rule, hr, rfl⟩)⟩

theorem pred_index_lt (h : p.Mentions pred) : p.pred_index pred < p.pred_list.length :=
  List.idxOf_lt_length_iff.mpr (mem_pred_list.mpr h)

theorem pred_index_inj {a b : String} (ha : p.Mentions a)
    (h : p.pred_index a = p.pred_index b) : a = b :=
  (List.idxOf_inj (mem_pred_list.mpr ha)).mp h

theorem pred_index_surj {i : Nat} (h : i < p.pred_list.length) :
    ∃ pred, p.Mentions pred ∧ p.pred_index pred = i := by
  refine ⟨p.pred_list[i], mem_pred_list.mp (List.getElem_mem h), ?_⟩
  unfold pred_index
  exact p.pred_list_nodup.idxOf_getElem i h

theorem mem_adj {s : Nat} {e : Nat × Bool} : e ∈ p.adj s ↔
    ∃ src tgt, p.Depends src tgt e.2 ∧ p.pred_index src = s ∧ p.pred_index tgt = e.1 := by
  have key : ∀ (es : List (String × String × Bool)) (tab : Adj),
      e ∈ es.foldl (fun adj e => Function.update adj (p.pred_index e.1)
        (adj (p.pred_index e.1) ++ [(p.pred_index e.2.1, e.2.2)])) tab s ↔
      e ∈ tab s ∨ ∃ src tgt, (src, tgt, e.2) ∈ es ∧ p.pred_index src = s ∧
        p.pred_index tgt = e.1 := by
    intro es
    induction es with
    | nil => simp
    | cons d es ih =>
      intro tab
      rw [List.foldl_cons, ih]
      by_cases hd : p.pred_index d.1 = s
      · rw [hd, Function.update_self]
        simp only [List.mem_append, List.mem_cons, List.not_mem_nil, or_false]
        constructor
        · rintro ((h | h) | ⟨src, tgt, h, hs, ht⟩)
          · exact .inl h
          · right
            refine ⟨d.1, d.2.1, .inl ?_, hd, ?_⟩ <;> rw [h]
          · exact .inr ⟨src, tgt, .inr h, hs, ht⟩
        · rintro (h | ⟨src, tgt, h | h, hs, ht⟩)
          · exact .inl (.inl h)
          · left
            right
            rw [← h, ht]
          · exact .inr ⟨src, tgt, h, hs, ht⟩
      · rw [Function.update_of_ne (Ne.symm hd)]
        simp only [List.mem_cons]
        constructor
        · rintro (h | ⟨src, tgt, h, hs, ht⟩)
          · exact .inl h
          · exact .inr ⟨src, tgt, .inr h, hs, ht⟩
        · rintro (h | ⟨src, tgt, h | h, hs, ht⟩)
          · exact .inl h
          · rw [← h] at hd
            exact absurd hs hd
          · exact .inr ⟨src, tgt, h, hs, ht⟩
  unfold adj
  rw [key]
  simp only [List.not_mem_nil, false_or, mem_edges]

theorem edge_of_depends (h : p.Depends src tgt neg) :
    Edge p.adj (p.pred_index src) (p.pred_index tgt) :=
  ⟨neg, mem_adj.mpr ⟨src, tgt, h, rfl, rfl⟩⟩

theorem adj_range (v w : Nat) (h : Edge p.adj v w) : w < p.pred_list.length := by
  obtain ⟨neg, he⟩ := h
  obtain ⟨src, tgt, hd, _, ht⟩ := mem_adj.mp he
  have hw : p.pred_index tgt = w := ht
  rw [← hw]
  exact pred_index_lt hd.mentions.2

theorem reach_of_path (h : p.Path src tgt) : Reach p.adj (p.pred_index src) (p.pred_index tgt) := by
  induction h with
  | refl => exact ReflTransGen.refl
  | tail _ he ih =>
    obtain ⟨neg, hd⟩ := he
    exact ih.tail (edge_of_depends hd)

theorem path_of_reach {v w : Nat} (h : Reach p.adj v w) (hv : p.pred_index src = v)
    (hm : p.Mentions src) : ∃ tgt, p.Mentions tgt ∧ p.pred_index tgt = w ∧ p.Path src tgt := by
  induction h with
  | refl => exact ⟨src, hm, hv, ReflTransGen.refl⟩
  | tail _ he ih =>
    obtain ⟨mid, hmid, hi, hpath⟩ := ih
    obtain ⟨neg, he⟩ := he
    obtain ⟨a, b, hd, ha, hb⟩ := mem_adj.mp he
    have hab : mid = a := pred_index_inj hmid (hi.trans ha.symm)
    exact ⟨b, hd.mentions.2, hb, hpath.tail ⟨neg, hab ▸ hd⟩⟩

end Program

/-! ## The lift over the edges between components -/

section

def delta (e : SccEdge) : Nat := if e.2 then 1 else 0

/-- The target of the edge is high enough. -/
def Lifted (st : Nat → Nat) (e : SccEdge) : Prop := st e.1.1 + delta e ≤ st e.1.2

/-- The edges into the components from `m` on are all lifted. -/
def Settled (edges : List SccEdge) (m : Nat) (st : Nat → Nat) : Prop :=
  ∀ e ∈ edges, m ≤ e.1.2 → Lifted st e

/-- A component that is not in stratum 0 is there because of an edge. -/
def Justified (edges : List SccEdge) (st : Nat → Nat) : Prop :=
  ∀ v, st v = 0 ∨ ∃ e ∈ edges, e.1.2 = v ∧ st v ≤ st e.1.1 + delta e

variable {edges : List SccEdge} {st : Nat → Nat} {ch : Bool} {e d : SccEdge} {m : Nat}

theorem relax_lifted (h : Lifted st e) : relax (st, ch) e = (st, ch) := by
  unfold Lifted delta at h
  unfold relax
  simp only
  rw [if_neg (by omega)]

theorem relax_raised (h : ¬ Lifted st e) :
    relax (st, ch) e = (Function.update st e.1.2 (st e.1.1 + delta e), true) := by
  unfold Lifted delta at h
  unfold relax delta
  simp only
  rw [if_pos (by omega)]

theorem relax_le (v : Nat) : st v ≤ (relax (st, ch) e).1 v := by
  by_cases h : Lifted st e
  · rw [relax_lifted h]
  · rw [relax_raised h]
    unfold Lifted at h
    by_cases hv : v = e.1.2
    · rw [hv]
      simp only [Function.update_self]
      omega
    · simp only [Function.update_of_ne hv, le_refl]

/-- Only the target of an edge not yet lifted changes. -/
theorem relax_other {v : Nat} (h : Lifted st e ∨ v ≠ e.1.2) : (relax (st, ch) e).1 v = st v := by
  by_cases hl : Lifted st e
  · rw [relax_lifted hl]
  · rw [relax_raised hl]
    exact Function.update_of_ne (h.resolve_left hl) _ _

theorem relax_makes_lifted (hne : e.1.2 < e.1.1) : Lifted (relax (st, ch) e).1 e := by
  by_cases h : Lifted st e
  · rw [relax_lifted h]
    exact h
  · rw [relax_raised h]
    unfold Lifted
    simp only [Function.update_self, Function.update_of_ne (Nat.ne_of_gt hne), le_refl]

section

variable (hdown : ∀ e ∈ edges, e.1.2 < e.1.1)

include hdown

/-- With the components above `m` settled, an edge into `m` or above stays
lifted. -/
theorem relax_keeps (hs : Settled edges (m + 1) st)
    (he : e ∈ edges) (hd : d ∈ edges) (hm : m ≤ d.1.2) (h : Lifted st d) :
    Lifted (relax (st, ch) e).1 d := by
  have hsrc : (relax (st, ch) e).1 d.1.1 = st d.1.1 := by
    apply relax_other
    by_cases hem : m + 1 ≤ e.1.2
    · exact .inl (hs e he hem)
    · right
      have := hdown d hd
      omega
  unfold Lifted at h ⊢
  rw [hsrc]
  exact le_trans h (relax_le _)

theorem relax_settled (hs : Settled edges (m + 1) st)
    (he : e ∈ edges) : Settled edges (m + 1) (relax (st, ch) e).1 := by
  intro d hd hm
  exact relax_keeps hdown hs he hd (by omega) (hs d hd hm)

omit hdown in
theorem relax_justified (hj : Justified edges st) (he : e ∈ edges) :
    Justified edges (relax (st, ch) e).1 := by
  intro v
  by_cases h : Lifted st e
  · rw [relax_lifted h]
    exact hj v
  · by_cases hv : v = e.1.2
    · right
      refine ⟨e, he, hv.symm, ?_⟩
      have hle : st e.1.1 ≤ (relax (st, ch) e).1 e.1.1 := relax_le _
      have hval : (relax (st, ch) e).1 v = st e.1.1 + delta e := by
        rw [relax_raised h, hv]
        exact Function.update_self _ _ _
      omega
    · have hval : (relax (st, ch) e).1 v = st v := relax_other (.inr hv)
      rw [hval]
      rcases hj v with h0 | ⟨d, hd, hdv, hle⟩
      · exact .inl h0
      · have : st d.1.1 ≤ (relax (st, ch) e).1 d.1.1 := relax_le _
        exact .inr ⟨d, hd, hdv, by omega⟩

variable (l : List SccEdge)

/-- A part of a pass: the components above `m` stay settled, and the edges
into `m` that it walks over, or that were lifted before, are lifted. -/
theorem pass_settles (hl : ∀ e ∈ l, e ∈ edges) (st : (Nat → Nat) × Bool)
    (hs : Settled edges (m + 1) st.1) :
    Settled edges (m + 1) (l.foldl relax st).1 ∧
      ∀ d ∈ edges, m ≤ d.1.2 → (d ∈ l ∨ Lifted st.1 d) → Lifted (l.foldl relax st).1 d := by
  induction l generalizing st with
  | nil =>
    refine ⟨hs, ?_⟩
    rintro d _ _ (h | h)
    · cases h
    · exact h
  | cons e l ih =>
    have he : e ∈ edges := hl e (.head _)
    obtain ⟨hset, hlift⟩ := ih (fun d hd => hl d (.tail _ hd)) (relax st e)
      (relax_settled hdown hs he)
    refine ⟨hset, ?_⟩
    intro d hd hm h
    apply hlift d hd hm
    rcases h with h | h
    · rcases List.mem_cons.mp h with rfl | h
      · exact .inr (relax_makes_lifted (hdown d hd))
      · exact .inl h
    · exact .inr (relax_keeps hdown hs he hd hm h)

omit hdown in
theorem pass_justified (hl : ∀ e ∈ l, e ∈ edges) (st : (Nat → Nat) × Bool)
    (hj : Justified edges st.1) : Justified edges (l.foldl relax st).1 := by
  induction l generalizing st with
  | nil => exact hj
  | cons e l ih =>
    exact ih (fun d hd => hl d (.tail _ hd)) (relax st e) (relax_justified hj (hl e (.head _)))

omit hdown in
/-- A pass that changes nothing found every edge lifted. -/
theorem pass_unchanged (st : (Nat → Nat) × Bool) (h : (l.foldl relax st).2 = false) :
    (l.foldl relax st).1 = st.1 ∧ st.2 = false ∧ ∀ e ∈ l, Lifted st.1 e := by
  induction l generalizing st with
  | nil => exact ⟨rfl, h, by simp⟩
  | cons e l ih =>
    obtain ⟨h₁, h₂, h₃⟩ := ih (relax st e) h
    by_cases hl : Lifted st.1 e
    · have hsame : relax st e = st := relax_lifted hl
      rw [hsame] at h₁ h₂ h₃
      refine ⟨by rw [List.foldl_cons, hsame, h₁], h₂, ?_⟩
      intro d hd
      rcases List.mem_cons.mp hd with rfl | hd
      · exact hl
      · exact h₃ d hd
    · have hr : relax st e = _ := relax_raised hl
      rw [hr] at h₂
      cases h₂

/-- As many passes as there are components lift every edge. -/
theorem lift_strata_spec (k : Nat) (st : Nat → Nat)
    (hs : Settled edges k st) (hj : Justified edges st) :
    (∀ e ∈ edges, Lifted (lift_strata edges k st) e) ∧
      Justified edges (lift_strata edges k st) := by
  induction k generalizing st with
  | zero => exact ⟨fun e he => hs e he (Nat.zero_le _), hj⟩
  | succ k ih =>
    unfold lift_strata
    simp only
    have hself : ∀ e ∈ edges, e ∈ edges := fun _ he => he
    obtain ⟨_, hlift⟩ := pass_settles hdown edges hself (st, false) hs
    have hj' := pass_justified edges hself (st, false) hj
    split_ifs with hch
    · apply ih _ _ hj'
      intro e he hm
      exact hlift e he hm (.inl he)
    · obtain ⟨hsame, _, hall⟩ := pass_unchanged edges (st, false) (by simpa using hch)
      rw [hsame]
      exact ⟨hall, hj⟩

end

end

end paideia_as_shell_datalog
