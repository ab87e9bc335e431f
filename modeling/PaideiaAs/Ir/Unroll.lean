-- Loop unrolling (`opt/unroll.rs`) on the arena of the nodes, with its trip counts.
import PaideiaAs.Encoder.Instruction
import PaideiaAs.Ir.Node
import PaideiaAs.Lib.Assoc
import PaideiaAs.Lib.Outcome
import PaideiaAs.Lib.Repeats

namespace paideia_as_ir

open paideia_as_runtime

def IrNodeId.index (id : IrNodeId) : Nat := id.val.toNat - 1

namespace opt.unroll

/-! ## The arena -/

/-- A node with its row of the table of children. -/
structure ArenaNode where
  data : IrNodeData
  children : List IrNodeId

structure UnrollInfo where
  factor : UInt32
  main_iters : UInt32
  remainder_iters : UInt32
  remainder_loop : Option IrNodeId

/-- The nodes in the order of their ids, and the side tables that the pass looks at: of
an instruction only its mnemonic. Ids are `u32`, and every child is a node. -/
structure IrArena where
  nodes : List ArenaNode
  instructions : List (IrNodeId × Mnemonic)
  trip_counts : List (IrNodeId × UInt32)
  unroll_info : List (IrNodeId × UnrollInfo)
  small : nodes.length < 2 ^ 32
  closed : ∀ node ∈ nodes, ∀ child ∈ node.children, child.index < nodes.length

namespace IrArena

/-- The id was given out by the arena. -/
def has (arena : IrArena) (id : IrNodeId) : Prop := id.index < arena.nodes.length

def get (arena : IrArena) (id : IrNodeId) : Option IrNodeData :=
  arena.nodes[id.index]?.map (·.data)

def children (arena : IrArena) (id : IrNodeId) : List IrNodeId :=
  (arena.nodes[id.index]?.map (·.children)).getD []

theorem child_has {arena : IrArena} {id child : IrNodeId} (h : child ∈ arena.children id) :
    arena.has child := by
  unfold children at h
  cases hn : arena.nodes[id.index]? with
  | none =>
    rw [hn] at h
    cases h
  | some node =>
    rw [hn] at h
    exact arena.closed node (List.mem_of_getElem? hn) child h

/-- More children for a node. -/
def push_children (arena : IrArena) (id : IrNodeId) (more : List IrNodeId)
    (h : ∀ child ∈ more, arena.has child) : IrArena where
  nodes := arena.nodes.modify id.index fun node => { node with children := node.children ++ more }
  instructions := arena.instructions
  trip_counts := arena.trip_counts
  unroll_info := arena.unroll_info
  small := by
    rw [List.length_modify]
    exact arena.small
  closed := by
    intro node hnode child hchild
    rw [List.length_modify]
    obtain ⟨i, hi⟩ := List.mem_iff_getElem?.mp hnode
    rw [List.getElem?_modify] at hi
    obtain ⟨old, hold, rfl⟩ := Option.map_eq_some_iff.mp hi
    have hold := List.mem_of_getElem? hold
    split at hchild
    · rcases List.mem_append.mp hchild with hchild | hchild
      · exact arena.closed old hold child hchild
      · exact h child hchild
    · exact arena.closed old hold child hchild

theorem ofNat_ne_zero {n : Nat} (h : n + 1 < 2 ^ 32) : UInt32.ofNat (n + 1) ≠ 0 := by
  intro heq
  have := congrArg UInt32.toNat heq
  rw [UInt32.toNat_ofNat_of_lt' h] at this
  cases this

/-- The next id. More nodes than a `u32` counts are a panic. -/
def alloc_with_children (arena : IrArena) (data : IrNodeData) (children : List IrNodeId)
    (h : ∀ child ∈ children, arena.has child) : Outcome (IrNodeId × IrArena) :=
  if hn : arena.nodes.length + 1 < 2 ^ 32 then
    .ok (⟨UInt32.ofNat (arena.nodes.length + 1), ofNat_ne_zero hn⟩,
      { nodes := arena.nodes ++ [⟨data, children⟩]
        instructions := arena.instructions
        trip_counts := arena.trip_counts
        unroll_info := arena.unroll_info
        small := by
          rw [List.length_append]
          exact hn
        closed := by
          intro node hnode child hchild
          rw [List.length_append]
          apply Nat.lt_add_right
          rcases List.mem_append.mp hnode with hnode | hnode
          · exact arena.closed node hnode child hchild
          · rw [List.mem_singleton.mp hnode] at hchild
            exact h child hchild })
  else .error .panic

end IrArena

/-! ## The pass -/

/-- A call or a string instruction at the id of the loop. -/
def is_unroll_safe (arena : IrArena) (loop_id : IrNodeId) : Bool :=
  match arena.instructions.lookup loop_id with
  | some .Call => false
  | some .RepMovsb | some .RepStosb | some .RepMovsq => false
  | _ => true

def default_factor : UInt32 := 4

/-- More copies of the body for the loop, and fewer iterations. -/
def duplicate_body (arena : IrArena) (loop_id body_id : IrNodeId) (hbody : arena.has body_id)
    (factor main_iters : UInt32) : IrArena :=
  let arena := arena.push_children loop_id (List.replicate (factor.toNat - 1) body_id)
    fun _ h => List.eq_of_mem_replicate h ▸ hbody
  { arena with trip_counts := Assoc.insert arena.trip_counts loop_id main_iters }

theorem has_duplicate_body {arena : IrArena} {loop_id body_id id : IrNodeId}
    {hbody : arena.has body_id} {factor main_iters : UInt32} :
    (duplicate_body arena loop_id body_id hbody factor main_iters).has id ↔ arena.has id := by
  unfold duplicate_body IrArena.push_children IrArena.has
  dsimp only
  rw [List.length_modify]

/-- A loop for the iterations that are left over. -/
def split_remainder (arena : IrArena) (loop_id body_id : IrNodeId) (hbody : arena.has body_id)
    (remainder_iters : UInt32) : Outcome (Option IrNodeId × IrArena) :=
  if 0 < remainder_iters then do
    let data ← Outcome.expect (arena.get loop_id)
    let (rem_id, arena) ← arena.alloc_with_children ⟨.Loop, data.span⟩ [body_id]
      fun _ h => List.mem_singleton.mp h ▸ hbody
    .ok (some rem_id,
      { arena with trip_counts := Assoc.insert arena.trip_counts rem_id remainder_iters })
  else .ok (none, arena)

def duplicate_body_and_split_remainder (arena : IrArena) (loop_id body_id : IrNodeId)
    (hbody : arena.has body_id) (factor trip : UInt32) :
    Outcome (UInt32 × UInt32 × Option IrNodeId × IrArena) := do
  let main_iters := trip / factor
  let remainder_iters := trip % factor
  let (remainder_loop, arena) ←
    split_remainder (duplicate_body arena loop_id body_id hbody factor main_iters) loop_id body_id
      (has_duplicate_body.mpr hbody) remainder_iters
  .ok (main_iters, remainder_iters, remainder_loop, arena)

def unroll_loop (arena : IrArena) (loop_id : IrNodeId) : Outcome IrArena :=
  if !is_unroll_safe arena loop_id then .ok arena
  else
    match arena.trip_counts.lookup loop_id with
    | none => .ok arena
    | some trip =>
      if trip < default_factor then .ok arena
      else
        match hbody : arena.children loop_id with
        | [] => .ok arena
        | body_id :: _ => do
          let (main_iters, remainder_iters, remainder_loop, arena') ←
            duplicate_body_and_split_remainder arena loop_id body_id
              (IrArena.child_has (hbody ▸ List.mem_cons_self)) default_factor trip
          .ok { arena' with
            unroll_info := Assoc.insert arena'.unroll_info loop_id
              ⟨default_factor, main_iters, remainder_iters, remainder_loop⟩ }

/-- The loops that are there when the pass begins. -/
def loop_ids (arena : IrArena) : List IrNodeId :=
  arena.nodes.zipIdx.filterMap fun node =>
    if node.1.data.kind = .Loop then IrNodeId.new (UInt32.ofNat (node.2 + 1)) else none

def apply (arena : IrArena) : Outcome IrArena := (loop_ids arena).foldlM unroll_loop arena

/-- The pass, `n` times. -/
def applications : Nat → IrArena → Outcome IrArena
  | 0, arena => .ok arena
  | n + 1, arena => do
    let arena ← applications n arena
    apply arena

end opt.unroll

end paideia_as_ir
