-- The search as a whole: a round of the loop keeps the invariant and does
-- some of a bounded amount of work, so that the loop ends, and when every
-- node was a start the components that came out hold every node once.
import PaideiaAs.ShellDatalog.Tarjan
import Mathlib.Algebra.BigOperators.Intervals

open Relation Finset

namespace paideia_as_shell_datalog

namespace Tarjan

variable {adj : Adj} {n : Nat} {t t' : Tarjan} {f : Frame} {fs : List Frame}

/-! ## The work that is left -/

/-- The visits and the edges of the nodes not yet visited. -/
def unvisited (adj : Adj) (n : Nat) (t : Tarjan) : Nat :=
  ∑ v ∈ range n, if (t.indices v).isNone then (adj v).length + 2 else 0

/-- The edges that the open frames have still to scan. -/
def pending (adj : Adj) (fs : List Frame) : Nat :=
  (fs.map fun f => (adj f.node).length - f.next_child + 1).sum

def work (adj : Adj) (n : Nat) (t : Tarjan) : Nat := unvisited adj n t + pending adj t.frames

/-- No search does more work than a visit of every node. -/
def allWork (adj : Adj) (n : Nat) : Nat := ∑ v ∈ range n, ((adj v).length + 2)

theorem pending_cons (adj : Adj) (f : Frame) (fs : List Frame) :
    pending adj (f :: fs) = ((adj f.node).length - f.next_child + 1) + pending adj fs := rfl

theorem unvisited_visit (adj : Adj) {w : Nat} (hw : t.indices w = none) (hn : w < n) :
    unvisited adj n (t.visit w) + ((adj w).length + 2) = unvisited adj n t := by
  have hmem : w ∈ range n := mem_range.mpr hn
  unfold unvisited
  rw [← sum_erase_add _ _ hmem, ← sum_erase_add (range n) _ hmem]
  have hrest : ∀ v ∈ (range n).erase w,
      (if ((t.visit w).indices v).isNone then (adj v).length + 2 else 0) =
        if (t.indices v).isNone then (adj v).length + 2 else 0 := by
    intro v hv
    rw [visit_other (ne_of_mem_erase hv)]
  rw [sum_congr rfl hrest, visit_self.1, hw]
  simp

theorem unvisited_le (adj : Adj) (n : Nat) (t : Tarjan) : unvisited adj n t ≤ allWork adj n := by
  unfold unvisited allWork
  apply sum_le_sum
  intro v _
  split <;> omega

/-! ## One round -/

theorem take_all {i : Nat} {v : Nat} (h : (adj v)[i]? = none) : (adj v).take i = adj v :=
  List.take_of_length_le (List.getElem?_eq_none_iff.mp h)

/-- A round goes through, keeps the invariant and does some work. -/
abbrev Advances (adj : Adj) (n : Nat) (t : Tarjan) (f : Frame) (fs : List Frame) : Prop :=
  ∃ t', step adj t f fs = .ok t' ∧ Inv adj n t' ∧ work adj n t' < work adj n t ∧
    ∀ v, (t.indices v).isSome → (t'.indices v).isSome

section

variable (h : Inv adj n t)

include h

/-- The edge leads to a node not met before: it is visited. -/
theorem step_visit (hf : t.frames = f :: fs)
    (hadj : ∀ v w, Edge adj v w → w < n) {w : Nat} {neg : Bool}
    (he : (adj f.node)[f.next_child]? = some (w, neg)) (hw : t.indices w = none) :
    Advances adj n t f fs := by
  have hedge : Edge adj f.node w := ⟨neg, List.mem_of_getElem? he⟩
  have hn : w < n := hadj _ _ hedge
  -- the tables with the frame moved on, before the visit
  obtain ⟨u, hu⟩ : ∃ u, u = { t with frames := { f with next_child := f.next_child + 1 } :: fs } :=
    ⟨_, rfl⟩
  have hus : u.stack = t.stack := by rw [hu]
  have hui : u.indices = t.indices := by rw [hu]
  have hul : u.lowlinks = t.lowlinks := by rw [hu]
  have huf : u.frames = { f with next_child := f.next_child + 1 } :: fs := by rw [hu]
  have hbooks : Books adj n u := by
    apply h.toBooks.same <;> rw [hu]
  have hwu : u.indices w = none := by rw [hui, hw]
  have hlater : Later u (u.visit w) u.stack := visit_later hbooks hwu fun _ hx => hx
  have hnested : Nested adj (u.visit w) (f :: fs) u.stack := by
    have hsame : Nested adj u (f :: fs) u.stack := by
      rw [hus]
      apply (hf ▸ h.nested).later (Later.of_same h.toBooks hus hui fun _ hx => hx)
      intro g _
      rw [hul]
    apply hsame.later hlater
    intro g hg
    exact visit_lowlinks hbooks hwu (hsame.mem g hg)
  obtain ⟨seg, rest, hl, gray, black, link, inner⟩ := hnested.top
  have hseen : (u.visit w).Seen ((u.visit w).lowlinks f.node) w := by
    refine ⟨by rw [visit_self.1]; rfl, ?_⟩
    intro _
    obtain ⟨i, hi⟩ := Option.isSome_iff_exists.mp (hbooks.known f.node (by rw [hl]; simp))
    have hlow := gray.low_le
    rw [index_of (hlater.indices _ i hi)] at hlow
    rw [index_of visit_self.1]
    exact le_trans hlow (le_of_lt (hbooks.counter _ i hi))
  refine ⟨u.visit w, ?_, { toBooks := visit_books hbooks hwu hn, nested := ?_ }, ?_, ?_⟩
  · unfold step
    simp only [he, hw, ← hu]
  · have hframes : (u.visit w).frames = { node := w, next_child := 0 } :: u.frames := rfl
    rw [hframes, huf]
    apply visit_nested
    · rw [hl]
      exact Nested.cons (gray.advance he hseen) black link inner
    · intro g hg
      simp only [List.head?_cons, Option.mem_def, Option.some.injEq] at hg
      rw [← hg]
      exact hedge
  · have hlt : f.next_child < (adj f.node).length := (List.getElem?_eq_some_iff.mp he).1
    have hvis := unvisited_visit adj hwu hn
    have htu : unvisited adj n u = unvisited adj n t := by
      unfold unvisited
      rw [hui]
    have hframes : (u.visit w).frames = { node := w, next_child := 0 } :: u.frames := rfl
    unfold work
    rw [hframes, huf, hf, pending_cons, pending_cons, pending_cons]
    simp only
    omega
  · intro v hv
    rw [← hui] at hv
    exact hlater.isSome hv

/-- The edge leads to a node met before: at most the low link of the frame
changes. -/
theorem step_seen (hf : t.frames = f :: fs) {w i : Nat} {neg : Bool}
    (he : (adj f.node)[f.next_child]? = some (w, neg)) (hw : t.indices w = some i) :
    Advances adj n t f fs := by
  have hwi : t.index w = i := index_of hw
  have hsome : (t.indices w).isSome := by rw [hw]; rfl
  obtain ⟨seg, rest, hl, gray, black, link, inner⟩ := (hf ▸ h.nested).top
  have hnodup := h.nodup
  rw [hl, List.nodup_append, List.nodup_cons] at hnodup
  have hwork : ∀ t' : Tarjan, t'.indices = t.indices →
      t'.frames = { f with next_child := f.next_child + 1 } :: fs →
      work adj n t' < work adj n t := by
    intro t' hi hfr
    have hlt : f.next_child < (adj f.node).length := (List.getElem?_eq_some_iff.mp he).1
    unfold work unvisited
    rw [hi, hfr, hf, pending_cons, pending_cons]
    simp only
    omega
  -- the round with the new low link of the frame
  have hround : ∀ t' : Tarjan, t'.stack = t.stack → t'.on_stack = t.on_stack →
      t'.indices = t.indices → t'.index_counter = t.index_counter → t'.sccs = t.sccs →
      t'.frames = { f with next_child := f.next_child + 1 } :: fs →
      (∀ x, x ≠ f.node → t'.lowlinks x = t.lowlinks x) →
      t'.lowlinks f.node ≤ t.lowlinks f.node →
      (∃ u ∈ t.stack, t.index u = t'.lowlinks f.node ∧ Reach adj f.node u) →
      (w ∈ t.stack → t'.lowlinks f.node ≤ i) → Inv adj n t' := by
    intro t' hs ho hi hc hsc hfr hother hlow hfrom hlw
    have hlater : Later t t' t.stack := Later.of_same h.toBooks hs hi fun _ hx => hx
    refine { toBooks := h.toBooks.same hs ho hi hc hsc, nested := ?_ }
    rw [hs, hfr, hl]
    have hidx : ∀ x, t'.index x = t.index x := by
      intro x
      unfold index
      rw [hi]
    have gray' : Gray adj t' f := by
      constructor
      · rw [hidx]
        exact le_trans hlow gray.low_le
      · obtain ⟨u, hu, hui, hur⟩ := hfrom
        refine ⟨u, by rw [hs]; exact hu, by rw [hidx, hui], hur⟩
      · intro e hmem
        exact hlater.seen hlow (gray.scanned e hmem)
    apply Nested.cons
    · apply gray'.advance he
      refine ⟨by rw [hi]; exact hsome, ?_⟩
      intro hws
      rw [hs] at hws
      rw [hidx, hwi]
      exact hlw hws
    · intro x hx
      exact (black x hx).later (hlater.sub (by rw [hl]; simp [hx])) ReflTransGen.refl hlow
    · exact link
    · apply inner.later (hlater.sub (by rw [hl]; simp +contextual))
      intro g hg
      apply hother
      intro hgf
      exact hnodup.2.1.1 (hgf ▸ inner.mem g hg)
  by_cases hlow : t.on_stack w = true ∧ i < t.lowlinks f.node
  · have hws : w ∈ t.stack := (h.on_stack w).mp hlow.1
    have hstep : step adj t f fs = .ok { t with
        frames := { f with next_child := f.next_child + 1 } :: fs
        lowlinks := Function.update t.lowlinks f.node i } := by
      unfold step
      simp only [he, hw, if_pos hlow]
    refine ⟨_, hstep, ?_, ?_, fun v hv => hv⟩
    · apply hround <;> try rfl
      · intro x hx
        exact Function.update_of_ne hx _ _
      · simp only [Function.update_self]
        omega
      · refine ⟨w, hws, by simp only [Function.update_self, hwi], ?_⟩
        exact ReflTransGen.single ⟨neg, List.mem_of_getElem? he⟩
      · intro _
        simp only [Function.update_self, le_refl]
    · exact hwork _ rfl rfl
  · have hstep : step adj t f fs =
        .ok { t with frames := { f with next_child := f.next_child + 1 } :: fs } := by
      unfold step
      simp only [he, hw, if_neg hlow]
    refine ⟨_, hstep, ?_, ?_, fun v hv => hv⟩
    · apply hround <;> try rfl
      · intro x _
        rfl
      · exact gray.low_from
      · intro hws
        have hon : t.on_stack w = true := (h.on_stack w).mpr hws
        have : ¬ i < t.lowlinks f.node := fun hlt => hlow ⟨hon, hlt⟩
        simp only
        omega
    · exact hwork _ rfl rfl

omit h in
theorem low_to_parent_cons (low : Nat) (p : Frame) (ps : List Frame) (lowlinks : Nat → Nat) :
    low_to_parent low (p :: ps) lowlinks p.node = min (lowlinks p.node) low ∧
      ∀ x, x ≠ p.node → low_to_parent low (p :: ps) lowlinks x = lowlinks x := by
  unfold low_to_parent
  simp only
  split_ifs with h
  · refine ⟨?_, fun x hx => Function.update_of_ne hx _ _⟩
    rw [Function.update_self]
    omega
  · refine ⟨?_, fun _ _ => rfl⟩
    omega

/-- The frame is done and its low link is that of a node below: its node
stays on the stack, closed, and the low link goes to the parent. -/
theorem step_close (hf : t.frames = f :: fs)
    (he : (adj f.node)[f.next_child]? = none) (hroot : t.lowlinks f.node ≠ t.index f.node) :
    Advances adj n t f fs := by
  obtain ⟨seg, rest, hl, gray, black, link, inner⟩ := (hf ▸ h.nested).top
  have hnodup := h.nodup
  rw [hl, List.nodup_append, List.nodup_cons] at hnodup
  obtain ⟨i, hi⟩ := Option.isSome_iff_exists.mp (h.known f.node (by rw [hl]; simp))
  have hscan := gray.scanned
  rw [take_all he] at hscan
  have hlt : t.lowlinks f.node < t.index f.node := lt_of_le_of_ne gray.low_le hroot
  obtain ⟨u, hu, hul, hur⟩ := gray.low_from
  have hurest : u ∈ rest := h.toBooks.below hl hu (hul ▸ hlt)
  -- there is a frame below, as a node is there
  cases inner with
  | nil => cases hurest
  | @cons p ps seg' rest' gray' black' link' inner' =>
    have hpf : Reach adj p.node f.node := ReflTransGen.single (link p rfl)
    have hstep : step adj t f (p :: ps) = .ok { t with
        frames := p :: ps
        lowlinks := low_to_parent (t.lowlinks f.node) (p :: ps) t.lowlinks } := by
      unfold step
      simp only [he, hi, Outcome.expect_some, Outcome.ok_bind]
      rw [if_neg (by rwa [index_of hi] at hroot)]
    obtain ⟨hlp, hother⟩ := low_to_parent_cons (t.lowlinks f.node) p ps t.lowlinks
    have hpr : p.node ∉ rest' := by
      have := hnodup.2.1.2
      rw [List.nodup_append, List.nodup_cons] at this
      exact this.2.1.1
    refine ⟨_, hstep, ?_, ?_, fun v hv => hv⟩
    · refine { toBooks := h.toBooks.same rfl rfl rfl rfl rfl, nested := ?_ }
      generalize ht' : ({ t with
        frames := p :: ps
        lowlinks := low_to_parent (t.lowlinks f.node) (p :: ps) t.lowlinks } : Tarjan) = t'
      have hs : t'.stack = t.stack := by rw [← ht']
      have hidx : t'.indices = t.indices := by rw [← ht']
      have hfr : t'.frames = p :: ps := by rw [← ht']
      have hlow : t'.lowlinks = low_to_parent (t.lowlinks f.node) (p :: ps) t.lowlinks := by
        rw [← ht']
      have hlater : Later t t' t.stack := Later.of_same h.toBooks hs hidx fun _ hx => hx
      have hindex : ∀ x, t'.index x = t.index x := by
        intro x
        unfold index
        rw [hidx]
      have hleft : t.stack = (seg ++ f.node :: seg') ++ p.node :: rest' := by
        rw [hl]
        simp
      rw [hfr, hs, hleft]
      rw [← hlow] at hlp hother
      apply Nested.cons
      · constructor
        · rw [hlp, hindex]
          exact le_trans (min_le_left _ _) gray'.low_le
        · rw [hlp]
          rcases min_choice (t.lowlinks p.node) (t.lowlinks f.node) with hm | hm
          · obtain ⟨u', hu', hul', hur'⟩ := gray'.low_from
            exact ⟨u', by rw [hs]; exact hu', by rw [hindex, hm, hul'], hur'⟩
          · exact ⟨u, by rw [hs]; exact hu, by rw [hindex, hm, hul], hpf.trans hur⟩
        · intro e hmem
          rw [hlp]
          exact hlater.seen (min_le_left _ _) (gray'.scanned e hmem)
      · intro x hx
        have hlaterx : Later t t' [x] := by
          apply hlater.sub
          intro y hy
          rw [List.mem_singleton.mp hy, hleft]
          exact List.mem_append_left _ hx
        rw [hlp]
        rcases List.mem_append.mp hx with hx | hx
        · exact (black x hx).later hlaterx hpf (min_le_right _ _)
        · rcases List.mem_cons.mp hx with rfl | hx
          · constructor
            · exact hpf
            · refine ⟨u, by rw [hs]; exact hu, ?_, hur⟩
              rw [hindex, hindex, hul]
              exact hlt
            · intro e hmem
              exact hlater.seen (min_le_right _ _) (hscan e hmem)
          · exact (black' x hx).later hlaterx ReflTransGen.refl (min_le_left _ _)
      · exact link'
      · apply inner'.later (hlater.sub (by rw [hleft]; simp +contextual))
        intro g hg
        apply hother
        intro hgp
        exact hpr (hgp ▸ inner'.mem g hg)
    · unfold work
      rw [hf]
      unfold unvisited
      rw [pending_cons adj f]
      simp only
      omega

omit h in
/-- The books when what the stack holds down to `v` has come out as a component. -/
theorem pop_books {seg rest : List Nat} {on_stack' : Nat → Bool} {v : Nat} (h : Books adj n t)
    (hl : t.stack = seg ++ v :: rest) (hscc : IsScc adj (seg ++ [v]))
    (hout : ∀ x, x ∈ seg ∨ x = v → ∀ w, Edge adj x w → (w ∈ seg ∨ w = v) ∨ w ∈ t.sccs.flatten)
    (hon : ∀ x, on_stack' x = true ↔ t.on_stack x = true ∧ x ∉ seg ∧ x ≠ v) :
    Books adj n { t with
      frames := fs
      stack := rest
      on_stack := on_stack'
      sccs := t.sccs ++ [seg ++ [v]] } := by
  have hnodup := h.nodup
  have hsorted := h.sorted
  rw [hl, List.nodup_append, List.nodup_cons] at hnodup
  rw [hl, List.pairwise_append, List.pairwise_cons] at hsorted
  have hmem : ∀ y, y ∈ t.stack ↔ (y ∈ seg ∨ y = v) ∨ y ∈ rest := by
    intro y
    rw [hl]
    simp [or_assoc]
  have hrest : ∀ y ∈ rest, y ∉ seg ∧ y ≠ v := by
    intro y hy
    refine ⟨fun hy' => hnodup.2.2 y hy' y (.tail _ hy) rfl, ?_⟩
    rintro rfl
    exact hnodup.2.1.1 hy
  refine { sorted := hsorted.2.1.2, counter := h.counter, on_stack := ?_, visited := ?_,
           apart := ?_, range := h.range, emitted := ?_ }
  · intro x
    simp only [hon, h.on_stack, hmem]
    constructor
    · rintro ⟨(hx | hx) | hx, hns, hnv⟩
      · exact absurd hx hns
      · exact absurd hx hnv
      · exact hx
    · exact fun hx => ⟨.inr hx, hrest x hx⟩
  · intro x
    rw [h.visited x, hmem]
    simp only [List.flatten_append, List.flatten_cons, List.flatten_nil, List.append_nil,
      List.mem_append, List.mem_singleton]
    tauto
  · intro x hx
    simp only [List.flatten_append, List.flatten_cons, List.flatten_nil, List.append_nil,
      List.mem_append, List.mem_singleton, not_or]
    exact ⟨h.apart x ((hmem x).mpr (.inr hx)), hrest x hx⟩
  · apply h.emitted.push
    · rw [List.nodup_append]
      refine ⟨hnodup.1, by simp, ?_⟩
      intro a ha b hb hab
      rw [List.mem_singleton.mp hb] at hab
      exact hnodup.2.2 a ha v (.head _) hab
    · intro x hx
      apply h.apart x ((hmem x).mpr (.inl _))
      simpa using hx
    · exact hscc
    · intro x hx w hedge
      rcases hout x (by simpa using hx) w hedge with hw | hw
      · left
        simpa using hw
      · exact .inr hw

/-- The frame is done and its low link is its own index: what the stack holds
down to its node comes out as a component. -/
theorem step_root (hf : t.frames = f :: fs)
    (he : (adj f.node)[f.next_child]? = none) (hroot : t.lowlinks f.node = t.index f.node) :
    Advances adj n t f fs := by
  obtain ⟨seg, rest, hl, gray, black, link, inner⟩ := (hf ▸ h.nested).top
  have hnodup := h.nodup
  have hsorted := h.sorted
  rw [hl, List.nodup_append, List.nodup_cons] at hnodup
  rw [hl, List.pairwise_append, List.pairwise_cons] at hsorted
  obtain ⟨i, hi⟩ := Option.isSome_iff_exists.mp (h.known f.node (by rw [hl]; simp))
  have hvseg : f.node ∉ seg := fun hv => hnodup.2.2 _ hv _ (.head _) rfl
  have hseen : ∀ x, x ∈ seg ∨ x = f.node → ∀ e ∈ adj x, t.Seen (t.index f.node) e.1 := by
    rintro x (hx | rfl) e hmem
    · rw [← hroot]
      exact (black x hx).scanned e hmem
    · have hscan := gray.scanned
      rw [take_all he, hroot] at hscan
      exact hscan e hmem
  -- the low link of the parent is smaller already
  have hlow : low_to_parent (t.lowlinks f.node) fs t.lowlinks = t.lowlinks := by
    cases inner with
    | nil => rfl
    | @cons p ps seg' rest' gray' _ _ _ =>
      have hp := hsorted.2.1.1 p.node (by simp)
      have := gray'.low_le
      unfold low_to_parent
      simp only
      rw [if_neg (by omega)]
  obtain ⟨on_stack', hcollect, hon⟩ : ∃ on_stack',
      collect_scc f.node (seg ++ f.node :: rest) t.on_stack [] =
        .ok (rest, on_stack', [] ++ (seg ++ [f.node])) ∧
      ∀ x, on_stack' x = true ↔ t.on_stack x = true ∧ x ∉ seg ∧ x ≠ f.node :=
    collect_scc_ok f.node t.on_stack [] hvseg
  have hstep : step adj t f fs = .ok { t with
      frames := fs
      stack := rest
      on_stack := on_stack'
      sccs := t.sccs ++ [seg ++ [f.node]] } := by
    unfold step
    simp only [he, hi, Outcome.expect_some, Outcome.ok_bind]
    rw [index_of hi] at hroot
    rw [if_pos hroot, hl, hcollect, hlow]
    simp
  refine ⟨_, hstep, ?_, ?_, fun v hv => hv⟩
  · exact { toBooks := pop_books h.toBooks hl (root_is_scc h.toBooks hl black hseen)
              (root_out h.toBooks hl hseen) hon
            nested := inner.later (pop_later h.toBooks hl rfl rfl) fun _ _ => rfl }
  · unfold work
    rw [hf, pending_cons]
    unfold unvisited
    simp only
    omega

/-- Every round with a frame on top goes through, keeps the invariant and
does some work. -/
theorem step_inv (hf : t.frames = f :: fs) (hadj : ∀ v w, Edge adj v w → w < n) :
    Advances adj n t f fs := by
  rcases he : (adj f.node)[f.next_child]? with _ | ⟨w, neg⟩
  · by_cases hroot : t.lowlinks f.node = t.index f.node
    · exact step_root h hf he hroot
    · exact step_close h hf he hroot
  · rcases hw : t.indices w with _ | i
    · exact step_visit h hf hadj he hw
    · exact step_seen h hf he hw

end

/-! ## The whole search -/

/-- The loop ends with no frame open, whatever fuel above the work is given. -/
theorem run_inv (hadj : ∀ v w, Edge adj v w → w < n) (k : Nat) (t : Tarjan)
    (hk : work adj n t = k) (h : Inv adj n t) :
    ∃ t', (∀ fuel, k < fuel → run adj fuel t = .ok t') ∧ Inv adj n t' ∧ t'.frames = [] ∧
      ∀ v, (t.indices v).isSome → (t'.indices v).isSome := by
  induction k using Nat.strong_induction_on generalizing t with
  | _ k ih =>
    rcases hf : t.frames with _ | ⟨f, fs⟩
    · refine ⟨t, ?_, h, hf, fun _ hv => hv⟩
      intro fuel hfuel
      obtain ⟨fuel, rfl⟩ : ∃ m, fuel = m + 1 := ⟨fuel - 1, by omega⟩
      simp only [run, hf]
    · obtain ⟨t₁, hstep, hinv, hwork, hvis⟩ := step_inv h hf hadj
      obtain ⟨t', hrun, hinv', hend, hvis'⟩ := ih (work adj n t₁) (by omega) t₁ rfl hinv
      refine ⟨t', ?_, hinv', hend, fun v hv => hvis' v (hvis v hv)⟩
      intro fuel hfuel
      obtain ⟨fuel, rfl⟩ : ∃ m, fuel = m + 1 := ⟨fuel - 1, by omega⟩
      simp only [run, hf, hstep, Outcome.ok_bind]
      exact hrun fuel (by omega)

theorem Nested.no_frames {l : List Nat} (h : Nested adj t [] l) : l = [] := by
  cases h
  rfl

/-- One start node: after it the node is visited, and no frame is open. -/
theorem from_start_inv (hadj : ∀ v w, Edge adj v w → w < n) {start : Nat} (hn : start < n)
    (h : Inv adj n t) (hf : t.frames = []) :
    ∃ t', (∀ fuel, allWork adj n < fuel → from_start fuel adj t start = .ok t') ∧ Inv adj n t' ∧
      t'.frames = [] ∧ (t'.indices start).isSome ∧
      ∀ v, (t.indices v).isSome → (t'.indices v).isSome := by
  by_cases hs : (t.indices start).isSome
  · refine ⟨t, ?_, h, hf, hs, fun _ hv => hv⟩
    intro fuel _
    unfold from_start
    rw [if_pos hs]
  · have hnone : t.indices start = none := by simpa using hs
    have hself : ({ t with frames := [] } : Tarjan) = t := by
      rw [← hf]
    have hempty : t.stack = [] := (hf ▸ h.nested).no_frames
    have hnested : Nested adj (t.visit start) [{ node := start, next_child := 0 }] [start] :=
      visit_nested Nested.nil (by simp)
    have hfr : (t.visit start).frames = [{ node := start, next_child := 0 }] := by
      have : (t.visit start).frames = { node := start, next_child := 0 } :: t.frames := rfl
      rw [this, hf]
    have hst : (t.visit start).stack = [start] := by
      have : (t.visit start).stack = start :: t.stack := rfl
      rw [this, hempty]
    have hinv : Inv adj n (t.visit start) :=
      { toBooks := visit_books h.toBooks hnone hn, nested := by rw [hfr, hst]; exact hnested }
    obtain ⟨t', hrun, hinv', hend, hvis⟩ := run_inv hadj _ _ rfl hinv
    have hlater : Later t (t.visit start) t.stack := visit_later h.toBooks hnone fun _ hx => hx
    refine ⟨t', ?_, hinv', hend, ?_, fun v hv => hvis v (hlater.isSome hv)⟩
    · intro fuel hfuel
      unfold from_start
      rw [if_neg hs, hself]
      apply hrun
      have hu := unvisited_visit adj hnone hn
      have hle := unvisited_le adj n t
      unfold work
      rw [hfr]
      simp only [pending, List.map_cons, List.map_nil, List.sum_cons, List.sum_nil]
      omega
    · apply hvis
      rw [visit_self.1]
      rfl

theorem init_inv (adj : Adj) (n : Nat) : Inv adj n init where
  sorted := List.Pairwise.nil
  counter := by simp [init]
  on_stack := by simp [init]
  visited := by simp [init]
  apart := by simp [init]
  range := by simp [init]
  emitted := { nodup := by simp [init], classes := by simp [init], order := by simp [init] }
  nested := Nested.nil

/-- The loop over start nodes, from any state with no frame open. -/
theorem starts_inv (hadj : ∀ v w, Edge adj v w → w < n) (starts : List Nat)
    (hn : ∀ v ∈ starts, v < n) (t : Tarjan) (h : Inv adj n t) (hf : t.frames = []) :
    ∃ t', (∀ fuel, allWork adj n < fuel → starts.foldlM (from_start fuel adj) t = .ok t') ∧
      Inv adj n t' ∧ t'.frames = [] ∧ (∀ v ∈ starts, (t'.indices v).isSome) ∧
      ∀ v, (t.indices v).isSome → (t'.indices v).isSome := by
  induction starts generalizing t with
  | nil => exact ⟨t, fun _ _ => rfl, h, hf, by simp, fun _ hv => hv⟩
  | cons start starts ih =>
    obtain ⟨t₁, hrun₁, hinv₁, hend₁, hself, hvis₁⟩ :=
      from_start_inv hadj (hn start (.head _)) h hf
    obtain ⟨t', hrun, hinv, hend, hall, hvis⟩ :=
      ih (fun v hv => hn v (.tail _ hv)) t₁ hinv₁ hend₁
    refine ⟨t', ?_, hinv, hend, ?_, fun v hv => hvis v (hvis₁ v hv)⟩
    · intro fuel hfuel
      rw [List.foldlM_cons, hrun₁ fuel hfuel, Outcome.ok_bind]
      exact hrun fuel hfuel
    · intro v hv
      rcases List.mem_cons.mp hv with rfl | hv
      · exact hvis v hself
      · exact hall v hv

end Tarjan

/-- The search over a graph of `n` nodes ends, and the components that come
out hold every node once, each being a class of nodes that reach each other,
with its edges into itself or into earlier components. -/
theorem tarjan_sccs_spec (adj : Adj) (n : Nat) (hadj : ∀ v w, Edge adj v w → w < n) :
    ∃ sccs, (∀ fuel, Tarjan.allWork adj n < fuel → tarjan_sccs fuel n adj = .ok sccs) ∧
      Emitted adj sccs ∧ ∀ v, v ∈ sccs.flatten ↔ v < n := by
  obtain ⟨t', hrun, hinv, hend, hall, _⟩ := Tarjan.starts_inv hadj (List.range n)
    (fun v hv => List.mem_range.mp hv) Tarjan.init (Tarjan.init_inv adj n) rfl
  have hempty : t'.stack = [] := (hend ▸ hinv.nested).no_frames
  have hmem : ∀ v, v ∈ t'.sccs.flatten ↔ (t'.indices v).isSome := by
    intro v
    rw [hinv.visited v, hempty]
    simp
  refine ⟨t'.sccs, ?_, hinv.emitted, ?_⟩
  · intro fuel hfuel
    unfold tarjan_sccs
    rw [hrun fuel hfuel]
    rfl
  · intro v
    rw [hmem]
    exact ⟨hinv.range v, fun hv => hall v (List.mem_range.mpr hv)⟩

end paideia_as_shell_datalog
