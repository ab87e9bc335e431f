-- The strongly connected components of the stratifier: Tarjan's algorithm
-- with an explicit stack of frames. The components come out one by one, each
-- is a whole class of nodes that reach each other, and the edges of a
-- component lead to itself or to a component that came out before it.
import PaideiaAs.Lib.Outcome

open Relation

namespace paideia_as_shell_datalog

open List (mem_append mem_cons mem_flatten pairwise_cons)

/-- The successors of each node, with the sign of the edge. The vectors of
the search are tables over the node numbers here. -/
abbrev Adj := Nat → List (Nat × Bool)

structure Frame where
  node : Nat
  next_child : Nat

/-- The variables of `tarjan_sccs`. The top of `stack` and of `frames` is the
head of the list. -/
structure Tarjan where
  index_counter : Nat
  stack : List Nat
  on_stack : Nat → Bool
  indices : Nat → Option Nat
  lowlinks : Nat → Nat
  sccs : List (List Nat)
  frames : List Frame

namespace Tarjan

def init : Tarjan where
  index_counter := 0
  stack := []
  on_stack := fun _ => false
  indices := fun _ => none
  lowlinks := fun _ => 0
  sccs := []
  frames := []

/-- A node is met for the first time: it gets the next index, goes on the
stack and opens a frame. -/
def visit (t : Tarjan) (w : Nat) : Tarjan :=
  { t with
    indices := Function.update t.indices w (some t.index_counter)
    lowlinks := Function.update t.lowlinks w t.index_counter
    index_counter := t.index_counter + 1
    stack := w :: t.stack
    on_stack := Function.update t.on_stack w true
    frames := { node := w, next_child := 0 } :: t.frames }

/-- Pops the stack down to `v`. -/
def collect_scc (v : Nat) :
    List Nat → (Nat → Bool) → List Nat → Outcome (List Nat × (Nat → Bool) × List Nat)
  | [], _, _ => .error .panic
  | w :: stack, on_stack, scc =>
    let on_stack := Function.update on_stack w false
    if w = v then .ok (stack, on_stack, scc ++ [w])
    else collect_scc v stack on_stack (scc ++ [w])

/-- A finished frame hands its low link to the frame below. -/
def low_to_parent (v_lowlink : Nat) (frames : List Frame) (lowlinks : Nat → Nat) : Nat → Nat :=
  match frames with
  | [] => lowlinks
  | parent :: _ =>
    if v_lowlink < lowlinks parent.node then Function.update lowlinks parent.node v_lowlink
    else lowlinks

/-- One round of the loop, with `frame` on top of the frames. -/
def step (adj : Adj) (t : Tarjan) (frame : Frame) (frames : List Frame) : Outcome Tarjan :=
  let v := frame.node
  match (adj v)[frame.next_child]? with
  | some (w, _) =>
    let t := { t with frames := { frame with next_child := frame.next_child + 1 } :: frames }
    match t.indices w with
    | none => .ok (t.visit w)
    | some w_index =>
      if t.on_stack w = true ∧ w_index < t.lowlinks v then
        .ok { t with lowlinks := Function.update t.lowlinks v w_index }
      else .ok t
  | none => do
    let v_lowlink := t.lowlinks v
    let v_index ← Outcome.expect (t.indices v)
    let t := { t with frames := frames, lowlinks := low_to_parent v_lowlink frames t.lowlinks }
    if v_lowlink = v_index then
      let (stack, on_stack, scc) ← collect_scc v t.stack t.on_stack []
      .ok { t with stack := stack, on_stack := on_stack, sccs := t.sccs ++ [scc] }
    else .ok t

/-- The loop over the frames. -/
def run (adj : Adj) : Nat → Tarjan → Outcome Tarjan
  | 0, _ => .error .div
  | fuel + 1, t =>
    match t.frames with
    | [] => .ok t
    | frame :: frames => do run adj fuel (← step adj t frame frames)

/-- One round of the loop over the start nodes. -/
def from_start (fuel : Nat) (adj : Adj) (t : Tarjan) (start : Nat) : Outcome Tarjan :=
  if (t.indices start).isSome then .ok t
  else run adj fuel ({ t with frames := [] }.visit start)

end Tarjan

def tarjan_sccs (fuel n : Nat) (adj : Adj) : Outcome (List (List Nat)) := do
  let t ← (List.range n).foldlM (Tarjan.from_start fuel adj) Tarjan.init
  .ok t.sccs

/-! ## Reachability and components -/

def Edge (adj : Adj) (v w : Nat) : Prop := ∃ neg, (w, neg) ∈ adj v

def Reach (adj : Adj) : Nat → Nat → Prop := ReflTransGen (Edge adj)

/-- All the nodes that some node reaches and is reached from. -/
def IsScc (adj : Adj) (l : List Nat) : Prop :=
  ∃ v ∈ l, ∀ y, y ∈ l ↔ Reach adj v y ∧ Reach adj y v

/-- What the components that came out so far are. -/
structure Emitted (adj : Adj) (sccs : List (List Nat)) : Prop where
  nodup : sccs.flatten.Nodup
  classes : ∀ l ∈ sccs, IsScc adj l
  order : ∀ (i : Nat) (l : List Nat), sccs[i]? = some l → ∀ v ∈ l, ∀ w, Edge adj v w →
    ∃ (j : Nat) (l' : List Nat), j ≤ i ∧ sccs[j]? = some l' ∧ w ∈ l'

variable {adj : Adj} {n : Nat} {t t' : Tarjan} {f : Frame} {fs : List Frame}

/-- A set that no edge leaves is left by no path. -/
theorem reach_closed {S : Nat → Prop} (hS : ∀ x y, S x → Edge adj x y → S y) {x y : Nat}
    (hx : S x) (h : Reach adj x y) : S y := by
  induction h with
  | refl => exact hx
  | tail _ he ih => exact hS _ _ ih he

theorem Emitted.closed {sccs : List (List Nat)} (h : Emitted adj sccs) {v w : Nat}
    (hv : v ∈ sccs.flatten) (he : Edge adj v w) : w ∈ sccs.flatten := by
  obtain ⟨l, hl, hvl⟩ := mem_flatten.mp hv
  obtain ⟨i, hi⟩ := List.getElem?_of_mem hl
  obtain ⟨j, l', _, hj, hw⟩ := h.order i l hi v hvl w he
  exact mem_flatten.mpr ⟨l', List.mem_of_getElem? hj, hw⟩

/-- One more component, whose edges lead to itself or to earlier ones. -/
theorem Emitted.push {sccs : List (List Nat)} (h : Emitted adj sccs) {l : List Nat}
    (hl : l.Nodup) (hapart : ∀ v ∈ l, v ∉ sccs.flatten) (hscc : IsScc adj l)
    (hout : ∀ v ∈ l, ∀ w, Edge adj v w → w ∈ l ∨ w ∈ sccs.flatten) :
    Emitted adj (sccs ++ [l]) where
  nodup := by
    rw [List.flatten_append, List.nodup_append]
    refine ⟨h.nodup, by simpa using hl, ?_⟩
    intro a ha b hb hab
    subst hab
    exact hapart a (by simpa using hb) ha
  classes := by
    intro l' hl'
    rcases mem_append.mp hl' with hl' | hl'
    · exact h.classes l' hl'
    · rw [List.mem_singleton.mp hl']
      exact hscc
  order := by
    intro i l' hi v hv w he
    by_cases hlt : i < sccs.length
    · rw [List.getElem?_append_left hlt] at hi
      obtain ⟨j, l'', hj, hs, hw⟩ := h.order i l' hi v hv w he
      refine ⟨j, l'', hj, ?_, hw⟩
      rw [List.getElem?_append_left (by omega), hs]
    · rw [List.getElem?_append_right (by omega)] at hi
      obtain ⟨hi0, rfl⟩ : i - sccs.length = 0 ∧ l = l' := by
        rw [List.getElem?_singleton] at hi
        split at hi
        · exact ⟨by assumption, by simpa using hi⟩
        · cases hi
      rcases hout v hv w he with hw | hw
      · refine ⟨i, l, le_refl _, ?_, hw⟩
        rw [List.getElem?_append_right (by omega), hi0]
        rfl
      · obtain ⟨l', hl', hwl⟩ := mem_flatten.mp hw
        obtain ⟨j, hj⟩ := List.getElem?_of_mem hl'
        have hjlt : j < sccs.length := (List.getElem?_eq_some_iff.mp hj).1
        refine ⟨j, l', by omega, ?_, hwl⟩
        rw [List.getElem?_append_left hjlt, hj]

/-! ## The invariant of the search -/

namespace Tarjan

def index (t : Tarjan) (v : Nat) : Nat := (t.indices v).getD 0

theorem index_of {v i : Nat} (h : t.indices v = some i) : t.index v = i := by
  unfold index
  rw [h]
  rfl

/-- The node was visited, and `low` is no more than its index if it is still
on the stack. -/
def Seen (t : Tarjan) (low w : Nat) : Prop :=
  (t.indices w).isSome ∧ (w ∈ t.stack → low ≤ t.index w)

/-- A node whose frame is open. -/
structure Gray (adj : Adj) (t : Tarjan) (f : Frame) : Prop where
  low_le : t.lowlinks f.node ≤ t.index f.node
  low_from : ∃ u ∈ t.stack, t.index u = t.lowlinks f.node ∧ Reach adj f.node u
  scanned : ∀ e ∈ (adj f.node).take f.next_child, t.Seen (t.lowlinks f.node) e.1

/-- A node on the stack whose frame is closed: `g` is the node of the frame
below it, and `low` the low link of that frame. -/
structure Black (adj : Adj) (t : Tarjan) (g low x : Nat) : Prop where
  above : Reach adj g x
  lower : ∃ u ∈ t.stack, t.index u < t.index x ∧ Reach adj x u
  scanned : ∀ e ∈ adj x, t.Seen low e.1

/-- The frames cut the stack into segments: the node of each frame, with
closed nodes above it. -/
inductive Nested (adj : Adj) (t : Tarjan) : List Frame → List Nat → Prop
  | nil : Nested adj t [] []
  | cons {f : Frame} {fs : List Frame} {seg rest : List Nat} (gray : Gray adj t f)
      (black : ∀ x ∈ seg, Black adj t f.node (t.lowlinks f.node) x)
      (link : ∀ g ∈ fs.head?, Edge adj g.node f.node) (inner : Nested adj t fs rest) :
      Nested adj t (f :: fs) (seg ++ f.node :: rest)

/-- How the tables of the search agree with each other. -/
structure Books (adj : Adj) (n : Nat) (t : Tarjan) : Prop where
  sorted : t.stack.Pairwise fun a b => t.index b < t.index a
  counter : ∀ v i, t.indices v = some i → i < t.index_counter
  on_stack : ∀ v, t.on_stack v = true ↔ v ∈ t.stack
  visited : ∀ v, (t.indices v).isSome ↔ v ∈ t.stack ∨ v ∈ t.sccs.flatten
  apart : ∀ v ∈ t.stack, v ∉ t.sccs.flatten
  range : ∀ v, (t.indices v).isSome → v < n
  emitted : Emitted adj t.sccs

structure Inv (adj : Adj) (n : Nat) (t : Tarjan) : Prop extends Books adj n t where
  nested : Nested adj t t.frames t.stack

/-- The search went from `t` to `t'` and kept the part `l` of the stack. -/
structure Later (t t' : Tarjan) (l : List Nat) : Prop where
  indices : ∀ v i, t.indices v = some i → t'.indices v = some i
  kept : ∀ x ∈ l, ∀ u ∈ t.stack, t.index u ≤ t.index x → u ∈ t'.stack
  fresh : ∀ w ∈ t'.stack, (t.indices w).isSome → w ∈ t.stack
  known : ∀ u ∈ t.stack, (t.indices u).isSome
  part : ∀ x ∈ l, x ∈ t.stack

namespace Later

variable {l : List Nat}

theorem isSome (h : Later t t' l) {v : Nat} (hv : (t.indices v).isSome) :
    (t'.indices v).isSome := by
  obtain ⟨i, hi⟩ := Option.isSome_iff_exists.mp hv
  rw [h.indices v i hi]
  rfl

theorem index (h : Later t t' l) {v : Nat} (hv : (t.indices v).isSome) :
    t'.index v = t.index v := by
  obtain ⟨i, hi⟩ := Option.isSome_iff_exists.mp hv
  rw [index_of hi, index_of (h.indices v i hi)]

theorem seen (h : Later t t' l) {low low' w : Nat} (hlow : low' ≤ low) (hw : t.Seen low w) :
    t'.Seen low' w := by
  refine ⟨h.isSome hw.1, ?_⟩
  intro hs
  rw [h.index hw.1]
  exact le_trans hlow (hw.2 (h.fresh w hs hw.1))

theorem sub (h : Later t t' l) {l' : List Nat} (hl : ∀ x ∈ l', x ∈ l) : Later t t' l' where
  indices := h.indices
  kept := fun x hx => h.kept x (hl x hx)
  fresh := h.fresh
  known := h.known
  part := fun x hx => h.part x (hl x hx)

end Later

theorem Gray.later (hg : Gray adj t f) (h : Later t t' [f.node])
    (hlow : t'.lowlinks f.node = t.lowlinks f.node) : Gray adj t' f := by
  have hf : (t.indices f.node).isSome := h.known _ (h.part _ (.head _))
  obtain ⟨u, hu, hui, hur⟩ := hg.low_from
  constructor
  · rw [hlow, h.index hf]
    exact hg.low_le
  · refine ⟨u, h.kept _ (.head _) u hu (hui ▸ hg.low_le), ?_, hur⟩
    rw [h.index (h.known u hu), hlow, hui]
  · intro e he
    rw [hlow]
    exact h.seen (le_refl _) (hg.scanned e he)

theorem Black.later {g g' low low' x : Nat} (hb : Black adj t g low x) (h : Later t t' [x])
    (hgg : Reach adj g' g) (hlow : low' ≤ low) : Black adj t' g' low' x := by
  have hx : (t.indices x).isSome := h.known _ (h.part _ (.head _))
  obtain ⟨u, hu, hux, hur⟩ := hb.lower
  constructor
  · exact hgg.trans hb.above
  · refine ⟨u, h.kept _ (.head _) u hu (le_of_lt hux), ?_, hur⟩
    rw [h.index (h.known u hu), h.index hx]
    exact hux
  · intro e he
    exact h.seen hlow (hb.scanned e he)

variable {l : List Nat}

theorem Nested.later (hn : Nested adj t fs l) (h : Later t t' l)
    (hlow : ∀ f ∈ fs, t'.lowlinks f.node = t.lowlinks f.node) : Nested adj t' fs l := by
  induction hn with
  | nil => exact Nested.nil
  | @cons f fs seg rest gray black link inner ih =>
    have hf : t'.lowlinks f.node = t.lowlinks f.node := hlow f (.head _)
    apply Nested.cons
    · exact gray.later (h.sub (by simp)) hf
    · intro x hx
      exact (black x hx).later (h.sub (by simp [hx])) ReflTransGen.refl (le_of_eq hf)
    · exact link
    · exact ih (h.sub (by simp +contextual)) fun g hg => hlow g (.tail _ hg)

theorem Nested.mem (hn : Nested adj t fs l) : ∀ f ∈ fs, f.node ∈ l := by
  induction hn with
  | nil => simp
  | cons _ _ _ _ ih =>
    intro g hg
    rcases mem_cons.mp hg with rfl | hg
    · simp
    · simp [ih g hg]

/-- The frame on top, the closed nodes above it, and the rest. -/
theorem Nested.top (hn : Nested adj t (f :: fs) l) :
    ∃ seg rest, l = seg ++ f.node :: rest ∧ Gray adj t f ∧
      (∀ x ∈ seg, Black adj t f.node (t.lowlinks f.node) x) ∧
      (∀ g ∈ fs.head?, Edge adj g.node f.node) ∧ Nested adj t fs rest := by
  cases hn with
  | cons gray black link inner => exact ⟨_, _, rfl, gray, black, link, inner⟩

theorem Books.known (h : Books adj n t) : ∀ u ∈ t.stack, (t.indices u).isSome :=
  fun u hu => (h.visited u).mpr (.inl hu)

theorem Books.nodup (h : Books adj n t) : t.stack.Nodup := by
  refine h.sorted.imp ?_
  intro a b hab he
  rw [he] at hab
  exact lt_irrefl _ hab

theorem Books.same (h : Books adj n t) (hs : t'.stack = t.stack) (ho : t'.on_stack = t.on_stack)
    (hi : t'.indices = t.indices) (hc : t'.index_counter = t.index_counter)
    (he : t'.sccs = t.sccs) : Books adj n t' where
  sorted := by
    unfold index
    rw [hs, hi]
    exact h.sorted
  counter := by
    rw [hi, hc]
    exact h.counter
  on_stack := by
    rw [ho, hs]
    exact h.on_stack
  visited := by
    rw [hi, hs, he]
    exact h.visited
  apart := by
    rw [hs, he]
    exact h.apart
  range := by
    rw [hi]
    exact h.range
  emitted := by
    rw [he]
    exact h.emitted

theorem Later.of_same (h : Books adj n t) (hs : t'.stack = t.stack) (hi : t'.indices = t.indices)
    (hl : ∀ x ∈ l, x ∈ t.stack) : Later t t' l where
  indices := by
    intro v i hv
    rw [hi]
    exact hv
  kept := by
    intro _ _ u hu _
    rw [hs]
    exact hu
  fresh := by
    intro w hw _
    rw [← hs]
    exact hw
  known := h.known
  part := hl

/-! ## What one round preserves -/

/-- A frame with one more edge scanned. -/
theorem Gray.advance {w : Nat} {neg : Bool} (hg : Gray adj t f)
    (hw : (adj f.node)[f.next_child]? = some (w, neg)) (hs : t.Seen (t.lowlinks f.node) w) :
    Gray adj t { f with next_child := f.next_child + 1 } where
  low_le := hg.low_le
  low_from := hg.low_from
  scanned := by
    intro e he
    simp only [List.take_add_one, hw, Option.toList_some, mem_append, List.mem_singleton] at he
    rcases he with he | rfl
    · exact hg.scanned e he
    · exact hs

section

variable {w : Nat}

theorem visit_later (h : Books adj n t) (hw : t.indices w = none) (hl : ∀ x ∈ l, x ∈ t.stack) :
    Later t (t.visit w) l where
  indices := by
    intro v i hv
    have hne : v ≠ w := by
      rintro rfl
      rw [hw] at hv
      cases hv
    unfold visit
    simp only [Function.update_of_ne hne]
    exact hv
  kept := fun _ _ u hu _ => .tail _ hu
  fresh := by
    intro x hx hvis
    rcases mem_cons.mp hx with rfl | hx
    · rw [hw] at hvis
      cases hvis
    · exact hx
  known := h.known
  part := hl

theorem visit_lowlinks (h : Books adj n t) (hw : t.indices w = none) {x : Nat}
    (hx : x ∈ t.stack) : (t.visit w).lowlinks x = t.lowlinks x := by
  have hne : x ≠ w := by
    rintro rfl
    have := h.known x hx
    rw [hw] at this
    cases this
  unfold visit
  exact Function.update_of_ne hne _ _

theorem visit_self : (t.visit w).indices w = some t.index_counter ∧
    (t.visit w).lowlinks w = t.index_counter := by
  unfold visit
  exact ⟨Function.update_self _ _ _, Function.update_self _ _ _⟩

theorem visit_other {v : Nat} (hv : v ≠ w) : (t.visit w).indices v = t.indices v := by
  unfold visit
  exact Function.update_of_ne hv _ _

theorem visit_books (h : Books adj n t) (hw : t.indices w = none) (hn : w < n) :
    Books adj n (t.visit w) := by
  have hlater : Later t (t.visit w) t.stack := visit_later h hw fun _ hx => hx
  constructor
  · have hcons : (t.visit w).stack = w :: t.stack := rfl
    rw [hcons, pairwise_cons]
    constructor
    · intro x hx
      obtain ⟨i, hi⟩ := Option.isSome_iff_exists.mp (h.known x hx)
      rw [index_of visit_self.1, index_of (hlater.indices x i hi)]
      exact h.counter x i hi
    · apply h.sorted.imp_of_mem
      intro a b ha hb hab
      rw [hlater.index (h.known a ha), hlater.index (h.known b hb)]
      exact hab
  · intro v i hv
    have hc : (t.visit w).index_counter = t.index_counter + 1 := rfl
    rw [hc]
    by_cases hvw : v = w
    · rw [hvw, visit_self.1] at hv
      cases hv
      omega
    · rw [visit_other hvw] at hv
      have := h.counter v i hv
      omega
  · intro v
    have hs : (t.visit w).on_stack = Function.update t.on_stack w true := rfl
    have hcons : (t.visit w).stack = w :: t.stack := rfl
    rw [hs, hcons, mem_cons]
    by_cases hvw : v = w
    · simp [hvw]
    · rw [Function.update_of_ne hvw, h.on_stack v]
      simp [hvw]
  · intro v
    have hcons : (t.visit w).stack = w :: t.stack := rfl
    rw [hcons, mem_cons]
    by_cases hvw : v = w
    · simp [hvw, visit_self.1]
    · rw [visit_other hvw, h.visited v]
      simp [hvw, visit]
  · intro v hv hd
    rcases mem_cons.mp hv with rfl | hv
    · have := (h.visited v).mpr (.inr hd)
      rw [hw] at this
      cases this
    · exact h.apart v hv hd
  · intro v hv
    by_cases hvw : v = w
    · rw [hvw]
      exact hn
    · rw [visit_other hvw] at hv
      exact h.range v hv
  · exact h.emitted

/-- The node just met, on top of frames that link to it. -/
theorem visit_nested (hn : Nested adj (t.visit w) fs l)
    (hlink : ∀ g ∈ fs.head?, Edge adj g.node w) :
    Nested adj (t.visit w) ({ node := w, next_child := 0 } :: fs) (w :: l) := by
  have hi : (t.visit w).index w = t.index_counter := index_of visit_self.1
  have gray : Gray adj (t.visit w) { node := w, next_child := 0 } := by
    constructor
    · simp only [hi, visit_self.2, le_refl]
    · refine ⟨w, .head _, ?_, ReflTransGen.refl⟩
      simp only [hi, visit_self.2]
    · simp
  have black : ∀ x ∈ ([] : List Nat), Black adj (t.visit w) w ((t.visit w).lowlinks w) x := by
    simp
  exact Nested.cons gray black hlink hn

end

section

variable {seg rest : List Nat}

/-- The loop that pops a component takes what is above `v`, and `v`. -/
theorem collect_scc_ok (v : Nat) (on_stack : Nat → Bool) (scc : List Nat) (hv : v ∉ seg) :
    ∃ on_stack', collect_scc v (seg ++ v :: rest) on_stack scc =
        .ok (rest, on_stack', scc ++ (seg ++ [v])) ∧
      ∀ x, on_stack' x = true ↔ on_stack x = true ∧ x ∉ seg ∧ x ≠ v := by
  induction seg generalizing on_stack scc with
  | nil =>
    refine ⟨Function.update on_stack v false, by simp [collect_scc], ?_⟩
    intro x
    by_cases hx : x = v <;> simp [hx]
  | cons w seg ih =>
    simp only [mem_cons, not_or] at hv
    obtain ⟨on_stack', he, hs⟩ := ih (Function.update on_stack w false) (scc ++ [w]) hv.2
    refine ⟨on_stack', ?_, ?_⟩
    · rw [List.cons_append, collect_scc, if_neg (Ne.symm hv.1), he]
      simp
    · intro x
      rw [hs]
      by_cases hx : x = w
      · simp [hx]
      · simp [hx]

/-- What is older than `v` is below it on the stack. -/
theorem Books.below (h : Books adj n t) {u v : Nat} (hstack : t.stack = seg ++ v :: rest)
    (hu : u ∈ t.stack) (hlt : t.index u < t.index v) : u ∈ rest := by
  have hsorted := h.sorted
  rw [hstack, List.pairwise_append] at hsorted
  rw [hstack] at hu
  rcases mem_append.mp hu with hu | hu
  · have := hsorted.2.2 u hu v (.head _)
    omega
  · rcases mem_cons.mp hu with rfl | hu
    · omega
    · exact hu

/-- What stays on the stack when everything above `rest` is popped. -/
theorem pop_later (h : Books adj n t) {v : Nat} (hstack : t.stack = seg ++ v :: rest)
    (hs : t'.stack = rest) (hi : t'.indices = t.indices) : Later t t' rest where
  indices := by
    intro x i hx
    rw [hi]
    exact hx
  kept := by
    intro x hx u hu hux
    have hsorted := h.sorted
    rw [hstack, List.pairwise_append, pairwise_cons] at hsorted
    rw [hs]
    exact h.below hstack hu (lt_of_le_of_lt hux (hsorted.2.1.1 x hx))
  fresh := by
    intro w hw _
    rw [hstack]
    rw [hs] at hw
    simp [hw]
  known := h.known
  part := by
    intro x hx
    rw [hstack]
    simp [hx]

/-- Every edge of the segment of a frame that is a root leads into the
segment or to a component that came out. -/
theorem root_out (h : Books adj n t) {v : Nat} (hstack : t.stack = seg ++ v :: rest)
    (hseen : ∀ x, x ∈ seg ∨ x = v → ∀ e ∈ adj x, t.Seen (t.index v) e.1) :
    ∀ x, x ∈ seg ∨ x = v → ∀ w, Edge adj x w → (w ∈ seg ∨ w = v) ∨ w ∈ t.sccs.flatten := by
  intro x hx w ⟨neg, he⟩
  obtain ⟨hvis, hidx⟩ := hseen x hx _ he
  rcases (h.visited w).mp hvis with hw | hw
  · have hle : t.index v ≤ t.index w := hidx hw
    have hsorted := h.sorted
    rw [hstack] at hw hsorted
    rw [List.pairwise_append] at hsorted
    rcases mem_append.mp hw with hw | hw
    · exact .inl (.inl hw)
    · rcases mem_cons.mp hw with rfl | hw
      · exact .inl (.inr rfl)
      · have := (pairwise_cons.mp hsorted.2.1).1 w hw
        omega
  · exact .inr hw

/-- The segment of a frame whose low link is its own index is a component. -/
theorem root_is_scc (h : Books adj n t) {v low : Nat} (hstack : t.stack = seg ++ v :: rest)
    (hblack : ∀ x ∈ seg, Black adj t v low x)
    (hseen : ∀ x, x ∈ seg ∨ x = v → ∀ e ∈ adj x, t.Seen (t.index v) e.1) :
    IsScc adj (seg ++ [v]) := by
  have hmem : ∀ y, y ∈ seg ++ [v] ↔ y ∈ seg ∨ y = v := by simp
  have hvs : v ∈ t.stack := by rw [hstack]; simp
  have hout := root_out h hstack hseen
  -- nothing below the segment, and nothing that came out, goes both ways with it
  have hclosed : ∀ x y, x ∈ seg ∨ x = v → Reach adj x y →
      (y ∈ seg ∨ y = v) ∨ y ∈ t.sccs.flatten := by
    intro x y hx hxy
    have hstep : ∀ a b, (a ∈ seg ∨ a = v) ∨ a ∈ t.sccs.flatten → Edge adj a b →
        (b ∈ seg ∨ b = v) ∨ b ∈ t.sccs.flatten := by
      rintro a b (ha | ha) hab
      · exact hout a ha b hab
      · exact .inr (h.emitted.closed ha hab)
    exact reach_closed hstep (.inl hx) hxy
  have hback : ∀ i x, t.index x ≤ i → x ∈ seg ∨ x = v → Reach adj x v := by
    intro i
    induction i using Nat.strong_induction_on with
    | _ i ih =>
      intro x hxi hx
      rcases hx with hx | rfl
      · obtain ⟨u, hu, hux, hxu⟩ := (hblack x hx).lower
        rcases hclosed x u (.inl hx) hxu with hin | hd
        · exact hxu.trans (ih (t.index u) (by omega) u (le_refl _) hin)
        · exact absurd hd (h.apart u hu)
      · exact ReflTransGen.refl
  refine ⟨v, by simp, ?_⟩
  intro y
  rw [hmem]
  constructor
  · intro hy
    refine ⟨?_, hback _ y (le_refl _) hy⟩
    rcases hy with hy | rfl
    · exact (hblack y hy).above
    · exact ReflTransGen.refl
  · rintro ⟨hvy, hyv⟩
    rcases hclosed v y (.inr rfl) hvy with hin | hd
    · exact hin
    · have hdv : v ∈ t.sccs.flatten :=
        reach_closed (fun a b ha hab => h.emitted.closed ha hab) hd hyv
      exact absurd hdv (h.apart v hvs)

end

end Tarjan

end paideia_as_shell_datalog
