-- How often the nodes of a tree are executed before and after the loops are unrolled.
import Mathlib.Algebra.Group.Action.Defs
import PaideiaAs.Ir.Unroll

namespace paideia_as_ir.opt.unroll

open paideia_as_runtime
open Outcome (bind_eq_ok)
open Multiset (card card_nsmul coe_card coe_nil map_coe mem_coe sum_coe)

/-! ## One node -/

/-- What the pass reads of a node, and what it may write to it. -/
structure View where
  kind : Option IrKind
  safe : Bool
  trip : Option UInt32
  children : List IrNodeId

def view (arena : IrArena) (id : IrNodeId) : View :=
  ⟨(arena.get id).map (·.kind), is_unroll_safe arena id, arena.trip_counts.lookup id,
    arena.children id⟩

namespace View

/-- The loop with four copies of its body's first child, where the pass rewrites it. -/
def unrolled (v : View) : View :=
  if v.kind = some .Loop ∧ v.safe then
    match v.trip, v.children with
    | some trip, body :: rest =>
      if trip < default_factor then v
      else { v with
        trip := some (trip / default_factor)
        children := body :: rest ++ List.replicate 3 body }
    | _, _ => v
  else v

/-- How often the children of the node are run. A loop without a trip count has one that
is not known, `symbolic`. -/
def times (v : View) (symbolic : Nat) : Nat :=
  if v.kind = some .Loop then
    match v.trip with
    | some trip => trip.toNat
    | none => symbolic
  else 1

/-- Unrolling the loop loses none of its iterations: it is not rewritten, or it has one
child and a number of iterations that four divides. -/
def even (v : View) : Bool :=
  if v.kind = some .Loop ∧ v.safe then
    match v.trip, v.children with
    | some trip, _ :: rest => trip < default_factor || (rest.isEmpty && trip % default_factor = 0)
    | _, _ => true
  else true

theorem unrolled_kind (v : View) : v.unrolled.kind = v.kind := by
  unfold unrolled
  split
  · split
    · split <;> rfl
    · rfl
  · rfl

def work (v : View) (symbolic : Nat) : Multiset IrNodeId :=
  v.times symbolic • (v.children : Multiset IrNodeId)

theorem rewritten_work {trip : UInt32} (body : IrNodeId) (rest : List IrNodeId) :
    trip.toNat • ((body :: rest : List IrNodeId) : Multiset IrNodeId)
      = (trip / default_factor).toNat •
          ((body :: rest ++ List.replicate 3 body : List IrNodeId) : Multiset IrNodeId) +
        ((trip % default_factor).toNat • ((body :: rest : List IrNodeId) : Multiset IrNodeId) +
          (3 * (trip / default_factor).toNat) • (rest : Multiset IrNodeId)) := by
  have hfour : default_factor.toNat = 4 := rfl
  have htrip : trip.toNat = 4 * (trip / default_factor).toNat + (trip % default_factor).toNat := by
    rw [UInt32.toNat_div, UInt32.toNat_mod, hfour]
    omega
  generalize (trip / default_factor).toNat = q at *
  generalize (trip % default_factor).toNat = r at *
  rw [htrip]
  ext x
  simp only [Multiset.count_nsmul, Multiset.count_add, Multiset.coe_count, List.count_cons,
    List.count_append, List.count_replicate, List.cons_append]
  generalize List.count x rest = n
  by_cases hx : body = x
  · simp only [hx, beq_self_eq_true, if_true]
    ring
  · have hne : (body == x) = false := beq_eq_false_iff_ne.mpr hx
    simp only [hne, Bool.false_eq_true, if_false]
    ring

theorem unrolled_work_le (v : View) (symbolic : Nat) : v.unrolled.work symbolic ≤ v.work symbolic := by
  unfold unrolled
  split
  · rename_i hloop
    split
    · rename_i trip body rest htrip hchildren
      split
      · exact le_refl _
      · unfold work times
        dsimp only
        rw [if_pos hloop.1, htrip, if_pos hloop.1, hchildren]
        dsimp only
        rw [@rewritten_work trip]
        exact Multiset.le_add_right _ _
    · exact le_refl _
  · exact le_refl _

theorem unrolled_work_eq_iff (v : View) (symbolic : Nat) :
    v.unrolled.work symbolic = v.work symbolic ↔ v.even = true := by
  unfold unrolled even
  split
  · rename_i hloop
    split
    · rename_i trip body rest htrip hchildren
      split
      · rename_i hlt
        simp [hlt]
      · rename_i hge
        have hfour : default_factor.toNat = 4 := rfl
        have hq : 0 < (trip / default_factor).toNat := by
          rw [UInt32.lt_iff_toNat_lt, hfour] at hge
          rw [UInt32.toNat_div, hfour]
          omega
        unfold work times
        dsimp only
        rw [if_pos hloop.1, htrip, if_pos hloop.1, hchildren]
        dsimp only
        rw [@rewritten_work trip, left_eq_add]
        have hr : trip % default_factor = 0 ↔ (trip % default_factor).toNat = 0 := by
          rw [← UInt32.toNat_inj]
          rfl
        generalize (trip / default_factor).toNat = q at *
        simp only [hge, decide_false, Bool.false_or, Bool.and_eq_true, List.isEmpty_iff,
          decide_eq_true_eq, hr]
        constructor
        · intro hzero
          have hcard := congrArg card hzero
          rw [Multiset.card_add, card_nsmul, card_nsmul, coe_card,
            coe_card, Multiset.card_zero, List.length_cons, Nat.add_eq_zero_iff,
            Nat.mul_eq_zero, Nat.mul_eq_zero] at hcard
          obtain ⟨hleft, hright⟩ := hcard
          refine ⟨List.length_eq_zero_iff.mp ?_, ?_⟩
          · exact hright.resolve_left (by omega)
          · exact hleft.resolve_right (by omega)
        · rintro ⟨rfl, hzero⟩
          rw [hzero, zero_nsmul, coe_nil, nsmul_zero, zero_add]
    · simp
  · simp

end View

/-! ## One loop -/

variable {arena arena' : IrArena} {id loop_id body_id : IrNodeId}

theorem index_inj {a b : IrNodeId} (h : a.index = b.index) : a = b := by
  have hpos : ∀ id : IrNodeId, id.val.toNat ≠ 0 := fun id h0 => id.nonzero (UInt32.toNat_inj.mp h0)
  have ha := hpos a
  have hb := hpos b
  unfold IrNodeId.index at h
  cases a
  cases b
  congr
  apply UInt32.toNat_inj.mp
  dsimp only at *
  omega

theorem duplicate_body_view {hbody : arena.has body_id} {factor main_iters : UInt32}
    (hid : arena.has id) :
    view (duplicate_body arena loop_id body_id hbody factor main_iters) id = if id = loop_id then
          { view arena id with
            trip := some main_iters
            children := arena.children id ++ List.replicate (factor.toNat - 1) body_id }
        else view arena id := by
  obtain ⟨node, hnode⟩ : ∃ node, arena.nodes[id.index]? = some node :=
    ⟨_, List.getElem?_eq_getElem hid⟩
  unfold view duplicate_body IrArena.push_children IrArena.get IrArena.children is_unroll_safe
  dsimp only
  rw [List.getElem?_modify, Assoc.lookup_insert, hnode]
  by_cases h : id = loop_id
  · rw [if_pos h, if_pos h, ← h]
    simp
  · have hne : ¬ loop_id.index = id.index := fun heq => h (index_inj heq).symm
    rw [if_neg h, if_neg h]
    simp [hne]

theorem alloc_view {data : IrNodeData} {children : List IrNodeId}
    {hchildren : ∀ child ∈ children, arena.has child} {fresh : IrNodeId}
    (h : arena.alloc_with_children data children hchildren = .ok (fresh, arena'))
    (hid : arena.has id) : arena'.has id ∧ id ≠ fresh ∧ view arena' id = view arena id := by
  unfold IrArena.alloc_with_children at h
  split at h
  · rename_i hsmall
    cases h
    unfold IrArena.has at *
    refine ⟨by simp only [List.length_append]; omega, ?_, ?_⟩
    · rintro rfl
      unfold IrNodeId.index at hid
      dsimp only at hid
      rw [UInt32.toNat_ofNat_of_lt' hsmall] at hid
      omega
    · unfold view IrArena.get IrArena.children is_unroll_safe
      dsimp only
      rw [List.getElem?_append_left hid]
  · cases h

theorem split_remainder_view {hbody : arena.has body_id} {remainder_iters : UInt32}
    {remainder_loop : Option IrNodeId}
    (h : split_remainder arena loop_id body_id hbody remainder_iters = .ok (remainder_loop, arena'))
    (hid : arena.has id) : arena'.has id ∧ view arena' id = view arena id := by
  unfold split_remainder at h
  split at h
  · obtain ⟨data, -, h⟩ := bind_eq_ok.mp h
    obtain ⟨⟨fresh, alloced⟩, halloc, h⟩ := bind_eq_ok.mp h
    cases h
    obtain ⟨hhas, hne, hview⟩ := alloc_view halloc hid
    refine ⟨hhas, ?_⟩
    rw [← hview]
    unfold view
    dsimp only
    rw [Assoc.lookup_insert, if_neg hne]
    rfl
  · cases h
    exact ⟨hid, rfl⟩

theorem unroll_loop_view (h : unroll_loop arena loop_id = .ok arena')
    (hloop : (view arena loop_id).kind = some .Loop) (hid : arena.has id) :
    arena'.has id ∧
      view arena' id = if id = loop_id then (view arena id).unrolled else view arena id := by
  have hkeep : (view arena loop_id).unrolled = view arena loop_id → arena' = arena →
      arena'.has id ∧
        view arena' id = if id = loop_id then (view arena id).unrolled else view arena id := by
    rintro hsame rfl
    refine ⟨hid, ?_⟩
    split
    · rename_i heq
      rw [heq, hsame]
    · rfl
  unfold unroll_loop at h
  split at h
  · rename_i hunsafe
    apply hkeep
    · unfold View.unrolled
      rw [if_neg]
      rintro ⟨-, hsafe⟩
      rw [show is_unroll_safe arena loop_id = true from hsafe] at hunsafe
      cases hunsafe
    · cases h
      rfl
  · rename_i hsafe
    have hsafe : (view arena loop_id).safe = true := by
      unfold view
      simpa using hsafe
    split at h
    · rename_i htrip
      apply hkeep
      · unfold View.unrolled
        rw [if_pos ⟨hloop, hsafe⟩, show (view arena loop_id).trip = none from htrip]
      · cases h
        rfl
    · rename_i trip htrip
      have htrip : (view arena loop_id).trip = some trip := htrip
      split at h
      · rename_i hlt
        apply hkeep
        · unfold View.unrolled
          rw [if_pos ⟨hloop, hsafe⟩, htrip]
          cases (view arena loop_id).children with
          | nil => rfl
          | cons body rest => exact if_pos hlt
        · cases h
          rfl
      · rename_i hge
        split at h
        · rename_i hnil
          apply hkeep
          · unfold View.unrolled
            rw [if_pos ⟨hloop, hsafe⟩, htrip, show (view arena loop_id).children = [] from hnil]
          · cases h
            rfl
        · rename_i body rest hchildren
          obtain ⟨⟨main_iters, remainder_iters, remainder_loop, split⟩, hdup, h⟩ :=
            bind_eq_ok.mp h
          cases h
          obtain ⟨⟨remainder_loop', split'⟩, hsplit, hdup⟩ := bind_eq_ok.mp hdup
          cases hdup
          obtain ⟨hhas, hview⟩ := split_remainder_view hsplit (has_duplicate_body.mpr hid)
          refine ⟨hhas, ?_⟩
          have hsame : view { split with
              unroll_info := Assoc.insert split.unroll_info loop_id
                ⟨default_factor, trip / default_factor, trip % default_factor, remainder_loop⟩ } id
              = view split id := rfl
          rw [hsame, hview, duplicate_body_view hid]
          by_cases heq : id = loop_id
          · rw [if_pos heq, if_pos heq, heq]
            unfold View.unrolled
            rw [if_pos ⟨hloop, hsafe⟩, htrip,
              show (view arena loop_id).children = body :: rest from hchildren]
            dsimp only
            rw [if_neg hge, hchildren]
            rfl
          · rw [if_neg heq, if_neg heq]

/-! ## The pass -/

theorem unroll_loops_view (ids : List IrNodeId) : ∀ {arena arena' : IrArena},
    ids.foldlM unroll_loop arena = .ok arena' → ids.Nodup →
      (∀ loop_id ∈ ids, arena.has loop_id ∧ (view arena loop_id).kind = some .Loop) →
        ∀ id, arena.has id → arena'.has id ∧
          view arena' id = if id ∈ ids then (view arena id).unrolled else view arena id := by
  induction ids with
  | nil =>
    intro arena arena' h _ _ id hid
    cases h
    exact ⟨hid, rfl⟩
  | cons loop_id ids ih =>
    intro arena arena' h hnodup hloops id hid
    rw [List.nodup_cons] at hnodup
    rw [List.forall_mem_cons] at hloops
    obtain ⟨next, hnext, h⟩ := bind_eq_ok.mp h
    have hstep := fun {id} (hid : arena.has id) => unroll_loop_view hnext hloops.1.2 hid
    have hrest : ∀ loop_id' ∈ ids, next.has loop_id' ∧ (view next loop_id').kind = some .Loop := by
      intro loop_id' hmem
      obtain ⟨hhas, hkind⟩ := hloops.2 loop_id' hmem
      obtain ⟨hhas', hview⟩ := hstep hhas
      refine ⟨hhas', ?_⟩
      rw [hview]
      split
      · rw [View.unrolled_kind, hkind]
      · exact hkind
    obtain ⟨hhas, hview⟩ := hstep hid
    obtain ⟨hhas', hview'⟩ := ih h hnodup.2 hrest id hhas
    refine ⟨hhas', ?_⟩
    rw [hview', hview]
    by_cases heq : id = loop_id
    · rw [if_pos heq, if_neg (heq ▸ hnodup.1), if_pos (heq ▸ List.mem_cons_self)]
    · rw [if_neg heq]
      by_cases hmem : id ∈ ids
      · rw [if_pos hmem, if_pos (List.mem_cons_of_mem _ hmem)]
      · rw [if_neg hmem, if_neg fun h => (List.mem_cons.mp h).elim heq hmem]

/-- The id of the node at a place. -/
theorem index_of_new {node : ArenaNode} {i : Nat} (hmem : (node, i) ∈ arena.nodes.zipIdx)
    (h : IrNodeId.new (UInt32.ofNat (i + 1)) = some id) : id.index = i := by
  have hsmall := arena.small
  obtain ⟨hi, -⟩ := List.getElem?_eq_some_iff.mp (List.mem_zipIdx_iff_getElem?.mp hmem)
  dsimp only at hi
  unfold IrNodeId.new at h
  split at h
  · cases h
    unfold IrNodeId.index
    dsimp only
    rw [UInt32.toNat_ofNat_of_lt' (show i + 1 < 2 ^ 32 by omega)]
    rfl
  · cases h

theorem new_index (id : IrNodeId) : IrNodeId.new (UInt32.ofNat (id.index + 1)) = some id := by
  have hpos : id.val.toNat ≠ 0 := fun h0 => id.nonzero (UInt32.toNat_inj.mp h0)
  have hback : UInt32.ofNat (id.index + 1) = id.get := by
    unfold IrNodeId.index IrNodeId.get
    rw [Nat.sub_add_cancel (Nat.pos_of_ne_zero hpos), UInt32.ofNat_toNat]
  rw [hback, IrNodeId.new_get]

theorem mem_loop_ids : id ∈ loop_ids arena ↔ (view arena id).kind = some .Loop := by
  unfold loop_ids view IrArena.get
  rw [List.mem_filterMap]
  constructor
  · rintro ⟨⟨node, i⟩, hmem, h⟩
    dsimp only at h
    split at h
    · rename_i hkind
      rw [index_of_new hmem h, List.mem_zipIdx_iff_getElem?.mp hmem]
      exact congrArg some hkind
    · cases h
  · intro h
    obtain ⟨data, hdata, hkind⟩ := Option.map_eq_some_iff.mp h
    obtain ⟨node, hnode, rfl⟩ := Option.map_eq_some_iff.mp hdata
    refine ⟨(node, id.index), List.mem_zipIdx_iff_getElem?.mpr hnode, ?_⟩
    dsimp only
    rw [if_pos hkind, new_index]

theorem loop_ids_nodup (arena : IrArena) : (loop_ids arena).Nodup := by
  have hplaces : arena.nodes.zipIdx.Pairwise fun a b => a.2 ≠ b.2 := by
    have hrange : (arena.nodes.zipIdx.map Prod.snd).Nodup := by
      rw [List.zipIdx_map_snd]
      exact List.nodup_range'
    exact List.pairwise_map.mp hrange
  unfold loop_ids
  rw [List.nodup_iff_pairwise_ne, List.pairwise_filterMap]
  apply hplaces.imp_of_mem
  rintro ⟨node, i⟩ ⟨node', j⟩ hi hj hne id hid id' hid' rfl
  dsimp only at hid hid'
  split at hid
  · split at hid'
    · exact hne ((index_of_new hi hid).symm.trans (index_of_new hj hid'))
    · cases hid'
  · cases hid

/-- The pass rewrites every loop that it can. -/
theorem apply_view (h : apply arena = .ok arena') (hid : arena.has id) :
    arena'.has id ∧ view arena' id = (view arena id).unrolled := by
  have hloops : ∀ loop_id ∈ loop_ids arena,
      arena.has loop_id ∧ (view arena loop_id).kind = some .Loop := by
    intro loop_id hmem
    have hkind := mem_loop_ids.mp hmem
    refine ⟨?_, hkind⟩
    by_contra hnot
    unfold view IrArena.get at hkind
    dsimp only at hkind
    rw [List.getElem?_eq_none (Nat.le_of_not_lt hnot)] at hkind
    cases hkind
  obtain ⟨hhas, hview⟩ := unroll_loops_view _ h (loop_ids_nodup arena) hloops id hid
  refine ⟨hhas, ?_⟩
  rw [hview]
  split
  · rfl
  · rename_i hmem
    unfold View.unrolled
    rw [if_neg fun hloop => hmem (mem_loop_ids.mpr hloop.1)]

/-! ## Executions -/

/-- How often `x` is executed in one walk from `id` that goes `depth` levels down: a loop
runs its children as often as its trip count says, any other node runs them once. -/
def executions (arena : IrArena) (symbolic : IrNodeId → Nat) : Nat → IrNodeId → IrNodeId → Nat
  | 0, _, _ => 0
  | depth + 1, id, x =>
    (if id = x then 1 else 0) + (view arena id).times (symbolic id) *
      ((arena.children id).map fun child => executions arena symbolic depth child x).sum

def work (arena : IrArena) (symbolic : IrNodeId → Nat) (id : IrNodeId) : Multiset IrNodeId :=
  (view arena id).work (symbolic id)

/-- The node is executed in a walk from the root. -/
def Executed (arena : IrArena) (symbolic : IrNodeId → Nat) (root id : IrNodeId) : Prop :=
  Repeats.Runs (work arena symbolic) root id

/-- No loop that is executed loses iterations. -/
def UnrollsEvenly (arena : IrArena) (symbolic : IrNodeId → Nat) (root : IrNodeId) : Prop :=
  ∀ id, Executed arena symbolic root id → (view arena id).even = true

variable {symbolic : IrNodeId → Nat} {root : IrNodeId}

theorem executions_eq (arena : IrArena) (symbolic : IrNodeId → Nat) (depth : Nat)
    (id x : IrNodeId) :
    executions arena symbolic depth id x = Repeats.count (work arena symbolic) depth id x := by
  induction depth generalizing id with
  | zero => rfl
  | succ depth ih =>
    unfold executions Repeats.count work View.work
    rw [Multiset.map_nsmul, Multiset.sum_nsmul, smul_eq_mul, map_coe, sum_coe]
    simp only [ih]
    rfl

theorem work_has {child : IrNodeId} (h : child ∈ work arena symbolic id) : arena.has child :=
  IrArena.child_has (mem_coe.mp (Multiset.mem_of_mem_nsmul h))

section

variable (h : apply arena = .ok arena')

include h

theorem work_apply (hid : arena.has id) :
    work arena' symbolic id = (view arena id).unrolled.work (symbolic id) := by
  unfold work
  rw [(apply_view h hid).2]

theorem work_apply_le (hid : arena.has id) : work arena' symbolic id ≤ work arena symbolic id := by
  rw [work_apply h hid]
  exact View.unrolled_work_le _ _

theorem executions_apply_le (hroot : arena.has root) (depth : Nat) (x : IrNodeId) :
    executions arena' symbolic depth root x ≤ executions arena symbolic depth root x := by
  rw [executions_eq, executions_eq]
  exact Repeats.count_le (fun _ _ _ hchild => work_has hchild) (fun _ hid => work_apply_le h hid)
    depth hroot x

end

theorem executions_apply_iff (h : apply arena = .ok arena') (hroot : arena.has root) :
    (∀ depth x, executions arena' symbolic depth root x = executions arena symbolic depth root x) ↔
      UnrollsEvenly arena symbolic root := by
  have hP : ∀ id, arena.has id → ∀ child ∈ work arena symbolic id, arena.has child :=
    fun _ _ _ hchild => work_has hchild
  simp only [executions_eq]
  rw [Repeats.count_eq_iff hP (fun _ hid => work_apply_le h hid) hroot]
  apply forall₂_congr
  intro id hid
  rw [work_apply h (hid.closed hP hroot)]
  exact View.unrolled_work_eq_iff _ _

theorem has_applications (n : Nat) : ∀ {arena' : IrArena}, applications n arena = .ok arena' →
    arena.has id → arena'.has id := by
  induction n with
  | zero =>
    intro arena' h hid
    cases h
    exact hid
  | succ n ih =>
    intro arena' h hid
    obtain ⟨before, hbefore, h⟩ := bind_eq_ok.mp h
    exact (apply_view h (ih hbefore hid)).1

theorem executions_applications_le (n : Nat) (hroot : arena.has root) (depth : Nat)
    (x : IrNodeId) : ∀ {arena' : IrArena}, applications n arena = .ok arena' →
      executions arena' symbolic depth root x ≤ executions arena symbolic depth root x := by
  induction n with
  | zero =>
    intro arena' h
    cases h
    exact Nat.le_refl _
  | succ n ih =>
    intro arena' h
    obtain ⟨before, hbefore, h⟩ := bind_eq_ok.mp h
    exact Nat.le_trans (executions_apply_le h (has_applications n hbefore hroot) depth x)
      (ih hbefore)

/-- After any number of applications every node is executed as often as before exactly if
no application met a loop that loses iterations. -/
theorem executions_preserved_iff (symbolic : IrNodeId → Nat) (hroot : arena.has root) (n : Nat)
    (h : applications n arena = .ok arena') :
    (∀ depth x, executions arena' symbolic depth root x = executions arena symbolic depth root x) ↔
      ∀ k, k < n → ∀ before, applications k arena = .ok before →
        UnrollsEvenly before symbolic root := by
  induction n generalizing arena' with
  | zero =>
    cases h
    exact iff_of_true (fun _ _ => rfl) fun k hk => absurd hk (Nat.not_lt_zero k)
  | succ n ih =>
    obtain ⟨before, hbefore, h⟩ := Outcome.bind_eq_ok.mp h
    have hroot' := has_applications n hbefore hroot
    have hstep := @executions_apply_iff before arena' symbolic root h hroot'
    constructor
    · intro hsame
      -- the counts only go down, so they stay the same all the way
      have hlast : ∀ depth x, executions before symbolic depth root x
          = executions arena symbolic depth root x := by
        intro depth x
        apply Nat.le_antisymm (executions_applications_le n hroot depth x hbefore)
        rw [← hsame depth x]
        exact executions_apply_le h hroot' depth x
      intro k hk b hb
      rcases Nat.lt_succ_iff_lt_or_eq.mp hk with hlt | rfl
      · exact (ih hbefore).mp hlast k hlt b hb
      · rw [hbefore] at hb
        cases hb
        apply hstep.mp
        intro depth x
        rw [hsame, hlast]
    · intro hall depth x
      rw [hstep.mpr (hall n (Nat.lt_succ_self n) before hbefore),
        (ih hbefore).mpr fun k hk => hall k (Nat.lt_succ_of_lt hk)]

/-! ## A loop of eight iterations, and one of ten -/

def span : paideia_as_diagnostics.Span := ⟨⟨1, Nat.zero_lt_one⟩, 0, 1, paideia_as_diagnostics.Span.one_fits⟩

def bodyId : IrNodeId := ⟨1, IrNodeId.one_ne⟩

def loopId : IrNodeId := ⟨2, IrNodeId.two_ne⟩

def oneLoop (trip : UInt32) : IrArena where
  nodes := [⟨⟨.Action, span⟩, []⟩, ⟨⟨.Loop, span⟩, [bodyId]⟩]
  instructions := []
  trip_counts := [(loopId, trip)]
  unroll_info := []
  small := by decide
  closed := by decide

theorem eight_iterations_preserved :
    ∃ arena', applications 1 (oneLoop 8) = .ok arena' ∧
      ((∀ depth x, executions arena' (fun _ => 0) depth loopId x
        = executions (oneLoop 8) (fun _ => 0) depth loopId x) ↔
          ∀ k, k < 1 → ∀ before, applications k (oneLoop 8) = .ok before →
            UnrollsEvenly before (fun _ => 0) loopId) :=
  ⟨_, rfl, executions_preserved_iff (fun _ => 0) (by unfold IrArena.has; decide) 1 rfl⟩

/-- Two of ten iterations are lost: nothing leads to the loop that has them. -/
theorem ten_iterations_become_eight :
    ¬ ∀ (arena arena' : IrArena) (symbolic : IrNodeId → Nat) (root : IrNodeId) (n : Nat),
      arena.has root → applications n arena = .ok arena' →
        ∀ depth x, executions arena' symbolic depth root x
          = executions arena symbolic depth root x := by
  intro h
  have heq := h (oneLoop 10) _ (fun _ => 0) loopId 1 (by unfold IrArena.has; decide) rfl 2 bodyId
  revert heq
  decide

end paideia_as_ir.opt.unroll
