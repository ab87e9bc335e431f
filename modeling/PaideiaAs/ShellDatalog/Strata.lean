-- What the stratifier computes: an error exactly when a cycle of the
-- dependency graph has a negated edge, and otherwise strata that no goal
-- climbs and every negated goal falls, numbered without a gap.
import PaideiaAs.ShellDatalog.Stratify

open Assoc Relation

namespace paideia_as_shell_datalog

open Program (adj_range mem_adj mem_pred_list path_of_reach pred_index_inj pred_index_lt)

theorem foldl_mark (l : List Nat) (i : Nat) (tab : Nat → Nat) (v : Nat) :
    l.foldl (fun tab node => Function.update tab node i) tab v = if v ∈ l then i else tab v := by
  induction l generalizing tab with
  | nil => rfl
  | cons x l ih =>
    rw [List.foldl_cons, ih]
    by_cases hv : v ∈ l
    · simp [hv]
    · by_cases hx : v = x
      · simp [hx]
      · simp [hv, hx]

theorem scc_of_eq {sccs : List (List Nat)} (hn : sccs.flatten.Nodup) {i : Nat} {l : List Nat}
    (hl : sccs[i]? = some l) {v : Nat} (hv : v ∈ l) : scc_of sccs v = i := by
  induction sccs using List.reverseRecOn with
  | nil => simp at hl
  | append_singleton sccs last ih =>
    have hfold : scc_of (sccs ++ [last]) v = if v ∈ last then sccs.length else scc_of sccs v := by
      unfold scc_of
      rw [List.zipIdx_append, List.foldl_append, List.zipIdx_singleton, List.foldl_cons,
        List.foldl_nil, Nat.zero_add]
      exact foldl_mark last _ _ v
    rw [List.flatten_append, List.nodup_append] at hn
    rw [hfold]
    by_cases hlt : i < sccs.length
    · rw [List.getElem?_append_left hlt] at hl
      have hnot : v ∉ last := by
        intro hvl
        have hvf : v ∈ sccs.flatten := List.mem_flatten.mpr ⟨l, List.mem_of_getElem? hl, hv⟩
        exact hn.2.2 v hvf v (by simpa using hvl) rfl
      rw [if_neg hnot]
      exact ih hn.1 hl
    · rw [List.getElem?_append_right (by omega), List.getElem?_singleton] at hl
      split at hl
      · cases hl
        rw [if_pos hv]
        omega
      · cases hl

/-! ## The edges between components -/

section

variable {κ : Type} [DecidableEq κ] {m : List (κ × Bool)} {j k : κ} {neg : Bool}

theorem mem_mark_entry {d : κ × Bool} (h : d ∈ mark_entry m k neg) : d ∈ m ∨ d.1 = k := by
  unfold mark_entry Assoc.insert at h
  rcases List.mem_cons.mp h with rfl | h
  · exact .inr rfl
  · exact .inl (List.mem_of_mem_filter h)

/-- The key has an entry, which is `true` where `neg` is. -/
def HasEntry (m : List (κ × Bool)) (k : κ) (neg : Bool) : Prop :=
  ∃ b, m.lookup k = some b ∧ (neg = true → b = true)

theorem HasEntry.mark (h : HasEntry m j neg) (k : κ) (b : Bool) :
    HasEntry (mark_entry m k b) j neg := by
  obtain ⟨c, hc, hneg⟩ := h
  unfold HasEntry mark_entry
  rw [lookup_insert]
  by_cases hjk : j = k
  · subst hjk
    rw [if_pos rfl, hc]
    refine ⟨_, rfl, ?_⟩
    intro hn
    simp [hneg hn]
  · rw [if_neg hjk]
    exact ⟨c, hc, hneg⟩

theorem hasEntry_mark (m : List (κ × Bool)) (k : κ) (neg : Bool) :
    HasEntry (mark_entry m k neg) k neg := by
  unfold HasEntry mark_entry
  rw [lookup_insert, if_pos rfl]
  refine ⟨_, rfl, ?_⟩
  intro hn
  simp [hn]

variable {sccOf : Nat → Nat} {acc acc' acc'' : List SccEdge}

/-- The map went from `acc` to `acc'` by a walk over these edges. -/
structure Walked (sccOf : Nat → Nat) (edges : Nat → Nat × Bool → Prop)
    (acc acc' : List SccEdge) : Prop where
  source : ∀ d ∈ acc', d ∈ acc ∨
    ∃ u e, edges u e ∧ sccOf u ≠ sccOf e.1 ∧ d.1 = (sccOf u, sccOf e.1)
  kept : ∀ k neg, HasEntry acc k neg → HasEntry acc' k neg
  added : ∀ u e, edges u e → sccOf u ≠ sccOf e.1 → HasEntry acc' (sccOf u, sccOf e.1) e.2

theorem Walked.refl (sccOf : Nat → Nat) (acc : List SccEdge) :
    Walked sccOf (fun _ _ => False) acc acc where
  source := fun _ hd => .inl hd
  kept := fun _ _ h => h
  added := fun _ _ h => h.elim

theorem Walked.trans {edges edges' both : Nat → Nat × Bool → Prop}
    (h : Walked sccOf edges acc acc') (h' : Walked sccOf edges' acc' acc'')
    (hb : ∀ u e, both u e ↔ edges u e ∨ edges' u e) : Walked sccOf both acc acc'' where
  source := by
    intro d hd
    rcases h'.source d hd with hd | ⟨u, e, ho, hne, hd⟩
    · rcases h.source d hd with hd | ⟨u, e, ho, hne, hd⟩
      · exact .inl hd
      · exact .inr ⟨u, e, (hb u e).mpr (.inl ho), hne, hd⟩
    · exact .inr ⟨u, e, (hb u e).mpr (.inr ho), hne, hd⟩
  kept := fun k neg hk => h'.kept k neg (h.kept k neg hk)
  added := by
    intro u e hue hne
    rcases (hb u e).mp hue with ho | ho
    · exact h'.kept _ _ (h.added u e ho hne)
    · exact h'.added u e ho hne

theorem walked_edge (sccOf : Nat → Nat) (u : Nat) (e : Nat × Bool) (acc : List SccEdge) :
    Walked sccOf (fun u' e' => u' = u ∧ e' = e) acc (add_edge sccOf u acc e) where
  source := by
    intro d hd
    unfold add_edge at hd
    split at hd
    · exact .inl hd
    · rename_i hne
      rcases mem_mark_entry hd with hd | hd
      · exact .inl hd
      · exact .inr ⟨u, e, ⟨rfl, rfl⟩, hne, hd⟩
  kept := by
    intro k neg hk
    unfold add_edge
    split
    · exact hk
    · exact hk.mark _ _
  added := by
    rintro u' e' ⟨rfl, rfl⟩ hne
    unfold add_edge
    rw [if_neg hne]
    exact hasEntry_mark _ _ _

theorem walked_node (sccOf : Nat → Nat) (u : Nat) (es : List (Nat × Bool)) (acc : List SccEdge) :
    Walked sccOf (fun u' e => u' = u ∧ e ∈ es) acc (es.foldl (add_edge sccOf u) acc) := by
  induction es generalizing acc with
  | nil =>
    have hfalse : (fun u' e => u' = u ∧ e ∈ ([] : List (Nat × Bool))) = fun _ _ => False := by
      funext u' e
      simp
    rw [hfalse]
    exact Walked.refl sccOf acc
  | cons e es ih =>
    apply (walked_edge sccOf u e acc).trans (ih _)
    intro u' e'
    rw [List.mem_cons]
    tauto

theorem walked_nodes (adj : Adj) (sccOf : Nat → Nat) (us : List Nat) (acc : List SccEdge) :
    Walked sccOf (fun u e => u ∈ us ∧ e ∈ adj u) acc
      (us.foldl (fun m u => (adj u).foldl (add_edge sccOf u) m) acc) := by
  induction us generalizing acc with
  | nil =>
    have hfalse : (fun u e => u ∈ ([] : List Nat) ∧ e ∈ adj u) = fun _ _ => False := by
      funext u e
      simp
    rw [hfalse]
    exact Walked.refl sccOf acc
  | cons u us ih =>
    apply (walked_node sccOf u (adj u) acc).trans (ih _)
    intro u' e
    rw [List.mem_cons]
    constructor
    · rintro ⟨rfl | h, he⟩
      · exact .inl ⟨rfl, he⟩
      · exact .inr ⟨h, he⟩
    · rintro (⟨rfl, he⟩ | ⟨h, he⟩)
      · exact ⟨.inl rfl, he⟩
      · exact ⟨.inr h, he⟩

/-- The map of the edges between components: nothing but such edges, and an
entry for each of them. -/
theorem walked_scc_edges (n : Nat) (adj : Adj) (sccOf : Nat → Nat) :
    Walked sccOf (fun u e => u < n ∧ e ∈ adj u) [] (scc_edges n adj sccOf) := by
  unfold scc_edges
  have h := walked_nodes adj sccOf (List.range n) []
  simpa only [List.mem_range] using h

end

/-! ## Components and cycles -/

section

variable {adj : Adj} {n : Nat} {sccs : List (List Nat)} {v w : Nat}

section

variable (h : Emitted adj sccs)

include h

theorem mem_component (hv : v ∈ sccs.flatten) : ∃ l, sccs[scc_of sccs v]? = some l ∧ v ∈ l := by
  obtain ⟨l, hl, hvl⟩ := List.mem_flatten.mp hv
  obtain ⟨i, hi⟩ := List.getElem?_of_mem hl
  rw [scc_of_eq h.nodup hi hvl]
  exact ⟨l, hi, hvl⟩

theorem Emitted.reach {l : List Nat} (hl : l ∈ sccs) (hv : v ∈ l) :
    w ∈ l ↔ Reach adj v w ∧ Reach adj w v := by
  obtain ⟨x, _, hx⟩ := h.classes l hl
  obtain ⟨hxv, hvx⟩ := (hx v).mp hv
  rw [hx w]
  constructor
  · rintro ⟨hxw, hwx⟩
    exact ⟨hvx.trans hxw, hwx.trans hxv⟩
  · rintro ⟨hvw, hwv⟩
    exact ⟨hxv.trans hvw, hwv.trans hvx⟩

/-- Nodes have the same number when they reach each other. -/
theorem scc_of_eq_iff (hv : v ∈ sccs.flatten) (hw : w ∈ sccs.flatten) :
    scc_of sccs v = scc_of sccs w ↔ Reach adj v w ∧ Reach adj w v := by
  obtain ⟨l, hl, hvl⟩ := mem_component h hv
  rw [← h.reach (List.mem_of_getElem? hl) hvl]
  constructor
  · intro he
    obtain ⟨l', hl', hwl'⟩ := mem_component h hw
    rw [← he, hl] at hl'
    cases hl'
    exact hwl'
  · intro hwl
    exact (scc_of_eq h.nodup hl hwl).symm

/-- An edge between components goes to one that came out earlier. -/
theorem scc_of_edge (hv : v ∈ sccs.flatten)
    (he : Edge adj v w) : scc_of sccs w ≤ scc_of sccs v := by
  obtain ⟨l, hl, hvl⟩ := mem_component h hv
  obtain ⟨j, l', hj, hl', hw⟩ := h.order _ _ hl v hvl w he
  rw [scc_of_eq h.nodup hl' hw]
  exact hj

end

/-- The test on the size of the component never rejects an edge inside it. -/
theorem negated_inside_iff {l : List Nat} :
    negated_inside adj l = true ↔ ∃ v ∈ l, ∃ w ∈ l, (w, true) ∈ adj v := by
  unfold negated_inside
  simp only [List.any_eq_true, Bool.and_eq_true, Bool.or_eq_true, decide_eq_true_eq,
    beq_iff_eq, List.contains_iff_mem]
  constructor
  · rintro ⟨v, hv, ⟨w, neg⟩, he, ⟨hneg, hw⟩, _⟩
    cases hneg
    exact ⟨v, hv, w, hw, he⟩
  · rintro ⟨v, hv, w, hw, he⟩
    refine ⟨v, hv, (w, true), he, ⟨rfl, hw⟩, ?_⟩
    by_cases hlen : l.length > 1
    · exact .inl hlen
    · right
      have hpos := List.length_pos_of_mem hv
      have hone : l.length = 1 := by omega
      obtain ⟨x, rfl⟩ := List.length_eq_one_iff.mp hone
      rw [List.mem_singleton] at hv hw
      exact ⟨hone, by rw [hv, hw]⟩

end

section

variable {p : Program} {sccs : List (List Nat)}

theorem cycle_iff (h : Emitted p.adj sccs) (hm : ∀ v, v ∈ sccs.flatten ↔ v < p.pred_list.length) :
    p.CycleThroughNegation ↔ ∃ l ∈ sccs, negated_inside p.adj l = true := by
  constructor
  · rintro ⟨src, tgt, hd, hpath⟩
    have hsrc := (hm _).mpr (pred_index_lt hd.mentions.1)
    obtain ⟨l, hl, hvl⟩ := mem_component h hsrc
    refine ⟨l, List.mem_of_getElem? hl, negated_inside_iff.mpr ?_⟩
    refine ⟨_, hvl, p.pred_index tgt, ?_, mem_adj.mpr ⟨src, tgt, hd, rfl, rfl⟩⟩
    rw [h.reach (List.mem_of_getElem? hl) hvl]
    exact ⟨ReflTransGen.single (Program.edge_of_depends hd), Program.reach_of_path hpath⟩
  · rintro ⟨l, hl, hneg⟩
    obtain ⟨v, hv, w, hw, he⟩ := negated_inside_iff.mp hneg
    obtain ⟨src, tgt, hd, rfl, ht⟩ := mem_adj.mp he
    refine ⟨src, tgt, hd, ?_⟩
    obtain ⟨src', hm', hi, hpath⟩ :=
      path_of_reach ((h.reach hl hw).mp hv).1 ht hd.mentions.2
    rw [← pred_index_inj hm' hi]
    exact hpath

/-- A checked index of a list, for all the elements of another one. -/
theorem mapM_expect (l : List Nat) (names : List String) (h : ∀ i ∈ l, i < names.length) :
    ∃ out, (l.mapM fun i => Outcome.expect names[i]?) = .ok out := by
  induction l with
  | nil => exact ⟨[], rfl⟩
  | cons i l ih =>
    obtain ⟨out, hout⟩ := ih fun j hj => h j (.tail _ hj)
    have hi : i < names.length := h i (.head _)
    refine ⟨names[i] :: out, ?_⟩
    rw [List.mapM_cons, List.getElem?_eq_getElem hi, Outcome.expect_some, Outcome.ok_bind, hout]
    rfl

end

/-! ## What the strata are -/

def Strata.stratum (s : Strata) (pred : String) : Nat := (s.lookup pred).getD 0

/-- The strata of a program: every predicate has one, a goal is no higher
than the head and a negated goal is lower, and the numbers have no gap. -/
structure Stratifies (p : Program) (s : Strata) : Prop where
  domain : ∀ pred, (s.lookup pred).isSome ↔ p.Mentions pred
  positive : ∀ rule ∈ p.rules, ∀ a, .Positive a ∈ rule.body →
    s.stratum a.predicate ≤ s.stratum rule.head.predicate
  negative : ∀ rule ∈ p.rules, ∀ a, .Negative a ∈ rule.body →
    s.stratum a.predicate < s.stratum rule.head.predicate
  gapless : ∃ k, ∀ j, (∃ pred, s.lookup pred = some j) ↔ j < k

/-- Numbers that go down without a gap, below a bound, are all the numbers
below some number. -/
theorem initial_segment (P : Nat → Prop) (hdown : ∀ j, P (j + 1) → P j) (b : Nat)
    (hb : ∀ j, P j → j < b) : ∃ k, ∀ j, P j ↔ j < k := by
  have hbelow : ∀ d j, P (j + d) → P j := by
    intro d
    induction d with
    | zero => exact fun j h => h
    | succ d ih => exact fun j h => ih j (hdown _ h)
  induction b with
  | zero => exact ⟨0, fun j => ⟨fun h => hb j h, fun h => absurd h (Nat.not_lt_zero j)⟩⟩
  | succ b ih =>
    by_cases hP : P b
    · refine ⟨b + 1, fun j => ⟨hb j, ?_⟩⟩
      intro hj
      apply hbelow (b - j) j
      rwa [show j + (b - j) = b by omega]
    · apply ih
      intro j hj
      have hlt := hb j hj
      have hne : j ≠ b := by
        rintro rfl
        exact hP hj
      omega

/-- A list of names with a number for each, by its place. -/
theorem lookup_zipIdx {l : List String} (hn : l.Nodup) (f : Nat → Nat) (x : String) :
    (l.zipIdx.map fun e => (e.1, f e.2)).lookup x =
      if x ∈ l then some (f (l.idxOf x)) else none := by
  have hkeys : keys (l.zipIdx.map fun e => (e.1, f e.2)) = l := by
    unfold keys
    rw [List.map_map]
    exact List.zipIdx_map_fst 0 l
  split
  · rename_i hx
    rw [lookup_iff_mem (by rw [hkeys]; exact hn), List.mem_map]
    refine ⟨(x, l.idxOf x), ?_, rfl⟩
    rw [List.mk_mem_zipIdx_iff_getElem?]
    exact List.getElem?_idxOf hx
  · rename_i hx
    rw [lookup_none, hkeys]
    exact hx

section

variable {p : Program} {sccs : List (List Nat)} {edges : List SccEdge}

/-- What the edges of the lift are, in whatever order they come. -/
structure LiftEdges (p : Program) (sccs : List (List Nat)) (edges : List SccEdge) : Prop where
  down : ∀ e ∈ edges, e.1.2 < e.1.1
  bounded : ∀ e ∈ edges, e.1.1 < sccs.length
  all : ∀ src tgt neg, p.Depends src tgt neg →
    scc_of sccs (p.pred_index src) ≠ scc_of sccs (p.pred_index tgt) →
    ∃ e ∈ edges, e.1 = (scc_of sccs (p.pred_index src), scc_of sccs (p.pred_index tgt)) ∧
      (neg = true → e.2 = true)

theorem scc_of_lt (h : Emitted p.adj sccs) {v : Nat} (hv : v ∈ sccs.flatten) :
    scc_of sccs v < sccs.length := by
  obtain ⟨l, hl, _⟩ := mem_component h hv
  exact (List.getElem?_eq_some_iff.mp hl).1

theorem lift_edges (h : Emitted p.adj sccs)
    (hm : ∀ v, v ∈ sccs.flatten ↔ v < p.pred_list.length) (hash : HashOrder SccEdge) :
    LiftEdges p sccs (hash.order (scc_edges p.pred_list.length p.adj (scc_of sccs))) := by
  have hwalk := walked_scc_edges p.pred_list.length p.adj (scc_of sccs)
  have hperm := hash.perm (scc_edges p.pred_list.length p.adj (scc_of sccs))
  have hsource : ∀ d ∈ hash.order (scc_edges p.pred_list.length p.adj (scc_of sccs)),
      ∃ u e, (u < p.pred_list.length ∧ e ∈ p.adj u) ∧ scc_of sccs u ≠ scc_of sccs e.1 ∧
        d.1 = (scc_of sccs u, scc_of sccs e.1) := by
    intro d hd
    rcases hwalk.source d (hperm.mem_iff.mp hd) with hnil | hd
    · cases hnil
    · exact hd
  constructor
  · intro d hd
    obtain ⟨u, e, ⟨hu, he⟩, hne, hd⟩ := hsource d hd
    have hle := scc_of_edge h ((hm u).mpr hu) ⟨e.2, he⟩
    rw [hd]
    exact lt_of_le_of_ne hle (Ne.symm hne)
  · intro d hd
    obtain ⟨u, e, ⟨hu, he⟩, hne, hd⟩ := hsource d hd
    rw [hd]
    exact scc_of_lt h ((hm u).mpr hu)
  · intro src tgt neg hd hne
    have he : (p.pred_index tgt, neg) ∈ p.adj (p.pred_index src) :=
      mem_adj.mpr ⟨src, tgt, hd, rfl, rfl⟩
    obtain ⟨b, hb, hneg⟩ := hwalk.added _ _ ⟨pred_index_lt hd.mentions.1, he⟩ hne
    exact ⟨_, hperm.mem_iff.mpr (mem_of_lookup hb), rfl, hneg⟩

/-- Where some component is in a stratum, one is in the stratum below. -/
theorem no_gap {st : Nat → Nat} (he : LiftEdges p sccs edges)
    (hl : ∀ e ∈ edges, Lifted st e) (hj : Justified edges st) (j : Nat) :
    ∀ d c, sccs.length - c ≤ d → st c = j + 1 → ∃ c', c' < sccs.length ∧ st c' = j := by
  intro d
  induction d with
  | zero =>
    intro c hc hst
    rcases hj c with h0 | ⟨e, hmem, ht, _⟩
    · omega
    · have := he.down e hmem
      have := he.bounded e hmem
      omega
  | succ d ih =>
    intro c hc hst
    rcases hj c with h0 | ⟨e, hmem, ht, hle⟩
    · omega
    · have hlift := hl e hmem
      have hdown := he.down e hmem
      have hb := he.bounded e hmem
      unfold Lifted at hlift
      rw [ht] at hlift hdown
      by_cases hd : delta e = 0
      · exact ih e.1.1 (by omega) (by omega)
      · have hone : delta e = 1 := by
          unfold delta at hd ⊢
          split at hd
          · rename_i h
            rw [if_pos h]
          · exact absurd rfl hd
        exact ⟨e.1.1, hb, by omega⟩

theorem strata_fit (h : Emitted p.adj sccs)
    (hm : ∀ v, v ∈ sccs.flatten ↔ v < p.pred_list.length) (hacyclic : ¬ p.CycleThroughNegation)
    (he : LiftEdges p sccs edges) :
    Stratifies p (p.pred_list.zipIdx.map fun e =>
      (e.1, lift_strata edges sccs.length (fun _ => 0) (scc_of sccs e.2))) := by
  obtain ⟨hl, hj⟩ := lift_strata_spec he.down sccs.length (fun _ => 0)
    (fun e hmem hle => absurd (he.down e hmem) (by have := he.bounded e hmem; omega))
    (fun _ => .inl rfl)
  generalize lift_strata edges sccs.length (fun _ => 0) = st at hl hj
  have hlookup : ∀ pred, (p.pred_list.zipIdx.map fun e => (e.1, st (scc_of sccs e.2))).lookup pred =
      if pred ∈ p.pred_list then some (st (scc_of sccs (p.pred_index pred))) else none :=
    lookup_zipIdx p.pred_list_nodup fun i => st (scc_of sccs i)
  have hstratum : ∀ pred, p.Mentions pred → Strata.stratum (p.pred_list.zipIdx.map fun e =>
      (e.1, st (scc_of sccs e.2))) pred = st (scc_of sccs (p.pred_index pred)) := by
    intro pred hp
    unfold Strata.stratum
    rw [hlookup, if_pos (mem_pred_list.mpr hp)]
    rfl
  have hflat : ∀ pred, p.Mentions pred → p.pred_index pred ∈ sccs.flatten :=
    fun pred hp => (hm _).mpr (pred_index_lt hp)
  constructor
  · intro pred
    rw [hlookup, ← mem_pred_list]
    split <;> simp [*]
  · intro rule hr a ha
    have hd : p.Depends a.predicate rule.head.predicate false :=
      ⟨rule, hr, _, ha, rfl, rfl, rfl⟩
    rw [hstratum _ hd.mentions.1, hstratum _ hd.mentions.2]
    by_cases hsame : scc_of sccs (p.pred_index a.predicate) =
        scc_of sccs (p.pred_index rule.head.predicate)
    · rw [hsame]
    · obtain ⟨e, hmem, heq, _⟩ := he.all _ _ _ hd hsame
      have hlift := hl e hmem
      unfold Lifted at hlift
      rw [heq] at hlift
      exact le_trans (Nat.le_add_right _ _) hlift
  · intro rule hr a ha
    have hd : p.Depends a.predicate rule.head.predicate true := ⟨rule, hr, _, ha, rfl, rfl, rfl⟩
    rw [hstratum _ hd.mentions.1, hstratum _ hd.mentions.2]
    -- a negated edge inside a component would be on a cycle
    have hne : scc_of sccs (p.pred_index a.predicate) ≠
        scc_of sccs (p.pred_index rule.head.predicate) := by
      intro hsame
      obtain ⟨_, hback⟩ :=
        (scc_of_eq_iff h (hflat _ hd.mentions.1) (hflat _ hd.mentions.2)).mp hsame
      obtain ⟨src', hm', hi, hpath⟩ := path_of_reach hback rfl hd.mentions.2
      rw [pred_index_inj hm' hi] at hpath
      exact hacyclic ⟨_, _, hd, hpath⟩
    obtain ⟨e, hmem, heq, hneg⟩ := he.all _ _ _ hd hne
    have hlift := hl e hmem
    unfold Lifted delta at hlift
    rw [heq, if_pos (hneg rfl)] at hlift
    exact hlift
  · have hex : ∀ j, (∃ pred, (p.pred_list.zipIdx.map fun e =>
        (e.1, st (scc_of sccs e.2))).lookup pred = some j) ↔
        ∃ c, c < sccs.length ∧ st c = j := by
      intro j
      constructor
      · rintro ⟨pred, hp⟩
        rw [hlookup] at hp
        split at hp
        · rename_i hmem
          cases hp
          exact ⟨_, scc_of_lt h (hflat pred (mem_pred_list.mp hmem)), rfl⟩
        · cases hp
      · rintro ⟨c, hc, rfl⟩
        have hget : sccs[c]? = some sccs[c] := List.getElem?_eq_getElem hc
        obtain ⟨v, hv, _⟩ := h.classes _ (List.getElem_mem hc)
        have hvn := (hm v).mp (List.mem_flatten.mpr ⟨_, List.getElem_mem hc, hv⟩)
        obtain ⟨pred, hp, rfl⟩ := Program.pred_index_surj hvn
        refine ⟨pred, ?_⟩
        rw [hlookup, if_pos (mem_pred_list.mpr hp), scc_of_eq h.nodup hget hv]
    simp only [hex]
    apply initial_segment _ _ ((Finset.range sccs.length).sup st + 1)
    · rintro j ⟨c, hc, hst⟩
      exact Nat.lt_succ_of_le (hst ▸ Finset.le_sup (Finset.mem_range.mpr hc))
    · rintro j ⟨c, _, hst⟩
      exact no_gap he hl hj j _ c (le_refl _) hst

end

section

variable {p : Program}

theorem compute_strata_accepts (hash : HashOrder SccEdge) (hacyclic : ¬ p.CycleThroughNegation) :
    ∃ N s, (∀ fuel, N ≤ fuel → compute_strata fuel hash p = .ok (.ok s)) ∧ Stratifies p s := by
  obtain ⟨sccs, hrun, hem, hmem⟩ := tarjan_sccs_spec p.adj p.pred_list.length adj_range
  have hfind : sccs.find? (negated_inside p.adj) = none := by
    rw [List.find?_eq_none]
    intro l hl hneg
    exact hacyclic ((cycle_iff hem hmem).mpr ⟨l, hl, hneg⟩)
  refine ⟨Tarjan.allWork p.adj p.pred_list.length + 1, _, ?_,
    strata_fit hem hmem hacyclic (lift_edges hem hmem hash)⟩
  intro fuel hfuel
  unfold compute_strata
  simp only [hrun fuel hfuel, Outcome.ok_bind, hfind]

/-- With one it gives an error. -/
theorem compute_strata_rejects (hash : HashOrder SccEdge) (hcycle : p.CycleThroughNegation) :
    ∃ N e, ∀ fuel, N ≤ fuel → compute_strata fuel hash p = .ok (.error e) := by
  obtain ⟨sccs, hrun, hem, hmem⟩ := tarjan_sccs_spec p.adj p.pred_list.length adj_range
  obtain ⟨l, hl, hneg⟩ := (cycle_iff hem hmem).mp hcycle
  obtain ⟨scc, hfind⟩ := Option.isSome_iff_exists.mp
    (List.find?_isSome.mpr ⟨l, hl, hneg⟩ : (sccs.find? (negated_inside p.adj)).isSome)
  have hscc := List.mem_of_find?_eq_some hfind
  obtain ⟨cycle, hnames⟩ := mapM_expect scc p.pred_list fun i hi =>
    (hmem i).mp (List.mem_flatten.mpr ⟨scc, hscc, hi⟩)
  refine ⟨Tarjan.allWork p.adj p.pred_list.length + 1,
    .CycleThroughNegation (cycle.insertionSort (· ≤ ·)), ?_⟩
  intro fuel hfuel
  unfold compute_strata
  simp only [hrun fuel hfuel, Outcome.ok_bind, hfind, hnames]

end

/-- Stratification is exact: the stratifier ends, whatever the order in which
the map of edges is walked; it succeeds exactly when no cycle of the
dependency graph has a negated edge, and what it gives then are strata of the
program. -/
theorem stratification_is_exact (hash : HashOrder SccEdge) (p : Program) :
    ∃ r N, (∀ fuel, N ≤ fuel → compute_strata fuel hash p = .ok r) ∧
      ((∃ s, r = .ok s) ↔ ¬ p.CycleThroughNegation) ∧ ∀ s, r = .ok s → Stratifies p s := by
  by_cases hc : p.CycleThroughNegation
  · obtain ⟨N, e, hrun⟩ := compute_strata_rejects hash hc
    refine ⟨.error e, N, hrun, ?_, ?_⟩
    · constructor
      · rintro ⟨s, hs⟩
        cases hs
      · exact fun h => absurd hc h
    · intro s hs
      cases hs
  · obtain ⟨N, s, hrun, hfit⟩ := compute_strata_accepts hash hc
    refine ⟨.ok s, N, hrun, ⟨fun _ => hc, fun _ => ⟨s, rfl⟩⟩, ?_⟩
    intro s' hs
    cases hs
    exact hfit

end paideia_as_shell_datalog
