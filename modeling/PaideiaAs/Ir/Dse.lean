-- Dead-store elimination (`opt/dse.rs`): which stores the pass takes for dead, and
-- when a sequence without them reads and leaves what the whole sequence does.
import PaideiaAs.Ir.Node
import PaideiaAs.Ir.Processor

namespace paideia_as_ir.opt.dse

open paideia_as_runtime Footprint
open List (append_assoc filterMap_cons length_cons map_cons mem_cons range' zip_cons_cons)
open Prod (fst snd)

/-! ## The pass -/

structure StoreOp where
  addr : UInt64
  width : Nat
  mmio : Bool
  deriving DecidableEq

inductive MemOp where
  | Store (s : StoreOp)
  | Load (addr : UInt64) (width : Nat)
  | Barrier
  deriving DecidableEq

abbrev InstructionSideTable := List (IrNodeId × Instruction)

/-- The parts of an address packed into one number. -/
def packed (base index : UInt8) (factor : Nat) (disp : Int32) : UInt64 :=
  base.toUInt64 ||| (index.toUInt64 <<< 8) ||| (UInt64.ofNat factor <<< 16)
    ||| (disp.toInt64.toUInt64 <<< 24)

/-- A store, for a move with at least two operands and memory in front. -/
def store_of (instr : Instruction) : Option MemOp :=
  match instr.mnemonic, instr.operands with
  | .Mov, .MemSib base index scale disp :: _ :: _ =>
    -- no index and the index 0 give the same number
    let addr := packed base.num ((index.map (·.num)).getD 0) scale.factor disp
    some (.Store ⟨addr, 8, false⟩)
  | .Mov, .MemDisp disp :: _ :: _ => some (.Store ⟨disp.toInt64.toUInt64 <<< 24, 8, false⟩)
  | _, _ => none

/-- What is kept, and the addresses that later stores cover, from the end. -/
def sweep : List MemOp → List Bool × List UInt64
  | [] => ([], [])
  | op :: ops =>
    let (keep, covered) := sweep ops
    match op with
    | .Barrier => (true :: keep, [])
    | .Load addr _ => (true :: keep, covered.filter (· ≠ addr))
    | .Store s =>
      if s.mmio then (true :: keep, [])
      else if covered.contains s.addr then (false :: keep, covered)
      else (true :: keep, s.addr :: covered)

def dse_block_impl (ops : List MemOp) : List Nat :=
  (List.range ops.length).filter fun i => (sweep ops).1.getD i false

/-- The stores among the nodes, with the places of the nodes from `start` on. -/
def stores (side_table : InstructionSideTable) (start : Nat) : List IrNodeId → List (Nat × MemOp)
  | [] => []
  | id :: ids =>
    match (side_table.lookup id).bind store_of with
    | some op => (start, op) :: stores side_table (start + 1) ids
    | none => stores side_table (start + 1) ids

/-- The nodes that are no stores, and the stores whose place the iterator has
next. -/
def preserved_nodes (store_indices : List Nat) : List Nat → List Nat → List Nat
  | _, [] => []
  | store_iter, node_idx :: rest =>
    match store_indices.idxOf? node_idx with
    | some pos =>
      if store_iter.head? = some pos then
        node_idx :: preserved_nodes store_indices store_iter.tail rest
      else preserved_nodes store_indices store_iter rest
    | none => node_idx :: preserved_nodes store_indices store_iter rest

def dse_block (side_table : InstructionSideTable) (nodes : List IrNodeId) : List Nat :=
  let found := stores side_table 0 nodes
  if found.isEmpty then List.range nodes.length
  else preserved_nodes (found.map fst) (dse_block_impl (found.map snd)) (List.range nodes.length)

/-! ## Covered stores -/

variable {side_table : InstructionSideTable}

/-- The address number of a node that is a store. -/
def key (side_table : InstructionSideTable) (id : IrNodeId) : Option UInt64 :=
  match (side_table.lookup id).bind store_of with
  | some (.Store s) => some s.addr
  | _ => none

/-- Whether each node stays: a store with a later store of the same address number
does not. -/
def stays (side_table : InstructionSideTable) : List IrNodeId → List Bool
  | [] => []
  | id :: ids =>
    (match key side_table id with
      | some a => !(ids.map (key side_table)).contains (some a)
      | none => true) :: stays side_table ids

theorem store_of_store {instr : Instruction} {op : MemOp} (h : store_of instr = some op) :
    ∃ addr, op = .Store ⟨addr, 8, false⟩ := by
  unfold store_of at h
  split at h
  · cases h
    exact ⟨_, rfl⟩
  · cases h
    exact ⟨_, rfl⟩
  · cases h

/-- A node is a store with an address number, or no store. -/
theorem key_cases (side_table : InstructionSideTable) (id : IrNodeId) :
    (∃ a, (side_table.lookup id).bind store_of = some (.Store ⟨a, 8, false⟩) ∧
      key side_table id = some a) ∨
    (side_table.lookup id).bind store_of = none ∧ key side_table id = none := by
  unfold key
  cases hop : (side_table.lookup id).bind store_of with
  | none => exact .inr ⟨rfl, rfl⟩
  | some op =>
    obtain ⟨instr, -, hinstr⟩ := Option.bind_eq_some_iff.mp hop
    obtain ⟨addr, rfl⟩ := store_of_store hinstr
    exact .inl ⟨addr, rfl, rfl⟩

theorem covered_iff {start : Nat} {ids : List IrNodeId} {a : UInt64} :
    a ∈ (sweep ((stores side_table start ids).map snd)).2 ↔
      some a ∈ ids.map (key side_table) := by
  induction ids generalizing start a with
  | nil => simp [stores, sweep]
  | cons id ids ih =>
    rw [map_cons, mem_cons]
    rcases key_cases side_table id with ⟨b, hop, hkey⟩ | ⟨hop, hkey⟩
    · unfold stores
      rw [hop, hkey, map_cons]
      unfold sweep
      dsimp only
      rw [if_neg (by simp)]
      split
      · rename_i hb
        rw [ih]
        have hb' : some b ∈ ids.map (key side_table) := ih.mp (by simpa using hb)
        constructor
        · exact Or.inr
        · rintro (h | h)
          · rw [Option.some.inj h]
            exact hb'
          · exact h
      · rw [mem_cons, ih]
        simp
    · unfold stores
      rw [hop, hkey, ih]
      simp

theorem sweep_store (a : UInt64) (ops : List MemOp) :
    (sweep (.Store ⟨a, 8, false⟩ :: ops)).1 = (!(sweep ops).2.contains a) :: (sweep ops).1 := by
  rw [sweep]
  dsimp only
  rw [if_neg (by simp)]
  split
  · rename_i h
    rw [h]
    rfl
  · rename_i h
    rw [Bool.eq_false_iff.mpr h]
    rfl

/-- The places of the marks that are set, counted from `start`. -/
def placesFrom (start : Nat) : List Bool → List Nat
  | [] => []
  | true :: bs => start :: placesFrom (start + 1) bs
  | false :: bs => placesFrom (start + 1) bs

theorem placesFrom_true (start : Nat) (bs : List Bool) :
    placesFrom start (true :: bs) = start :: placesFrom (start + 1) bs := rfl

theorem placesFrom_false (start : Nat) (bs : List Bool) :
    placesFrom start (false :: bs) = placesFrom (start + 1) bs := rfl

theorem le_of_mem_placesFrom {bs : List Bool} :
    ∀ {start i : Nat}, i ∈ placesFrom start bs → start ≤ i := by
  induction bs with
  | nil =>
    intro start i h
    cases h
  | cons b bs ih =>
    intro start i h
    cases b with
    | true =>
      rcases mem_cons.mp h with rfl | h
      · exact Nat.le_refl _
      · exact Nat.le_of_succ_le (ih h)
    | false => exact Nat.le_of_succ_le (ih h)

theorem filter_range'_getD (bs : List Bool) : ∀ start pre, pre.length = start →
    (range' start bs.length).filter (fun i => (pre ++ bs).getD i false) = placesFrom start bs := by
  induction bs with
  | nil =>
    intro start pre _
    rfl
  | cons b bs ih =>
    intro start pre hpre
    have ih := ih (start + 1) (pre ++ [b]) (by simp [hpre])
    rw [append_assoc, List.singleton_append] at ih
    have hat : (pre ++ b :: bs).getD start false = b := by
      subst hpre
      simp
    rw [length_cons, List.range'_succ, List.filter_cons, hat]
    cases b with
    | true =>
      rw [if_pos rfl]
      unfold placesFrom
      rw [← ih]
    | false =>
      rw [if_neg (by simp)]
      unfold placesFrom
      rw [← ih]

theorem sweep_length (ops : List MemOp) : (sweep ops).1.length = ops.length := by
  induction ops with
  | nil => rfl
  | cons op ops ih =>
    unfold sweep
    dsimp only
    split
    · rw [length_cons, length_cons, ih]
    · rw [length_cons, length_cons, ih]
    · split
      · rw [length_cons, length_cons, ih]
      · split
        all_goals rw [length_cons, length_cons, ih]

theorem dse_block_impl_eq (ops : List MemOp) : dse_block_impl ops = placesFrom 0 (sweep ops).1 := by
  unfold dse_block_impl
  rw [List.range_eq_range', ← sweep_length ops]
  exact filter_range'_getD (sweep ops).1 0 [] rfl

theorem stores_place {ids : List IrNodeId} : ∀ {start i : Nat},
    i ∈ (stores side_table start ids).map fst → start ≤ i := by
  induction ids with
  | nil =>
    intro start i h
    cases h
  | cons id ids ih =>
    intro start i h
    unfold stores at h
    split at h
    · rw [map_cons] at h
      rcases mem_cons.mp h with rfl | h
      · exact Nat.le_refl _
      · exact Nat.le_of_succ_le (ih h)
    · exact Nat.le_of_succ_le (ih h)

theorem idxOf?_append_cons {before after : List Nat} {i : Nat} (h : i ∉ before) :
    (before ++ i :: after).idxOf? i = some before.length := by
  induction before with
  | nil => simp [List.idxOf?_cons]
  | cons b before ih =>
    rw [mem_cons, not_or] at h
    rw [List.cons_append, List.idxOf?_cons, ih h.2, if_neg (by simpa using Ne.symm h.1)]
    rfl

/-- The iterator over the kept stores is in step with the nodes: `before` holds
the places of the stores that it has passed. -/
theorem preserved_nodes_eq {ids : List IrNodeId} : ∀ {start : Nat} {before : List Nat},
    (∀ i ∈ before, i < start) →
    preserved_nodes (before ++ (stores side_table start ids).map fst)
        (placesFrom before.length (sweep ((stores side_table start ids).map snd)).1)
        (range' start ids.length) = placesFrom start (stays side_table ids) := by
  induction ids with
  | nil =>
    intro start before _
    rfl
  | cons id ids ih =>
    intro start before hbefore
    have hfresh : start ∉ before := fun h => Nat.lt_irrefl _ (hbefore start h)
    rw [length_cons, List.range'_succ]
    unfold preserved_nodes
    rcases key_cases side_table id with ⟨a, hop, hkey⟩ | ⟨hop, hkey⟩
    · have hnext : ∀ i ∈ before ++ [start], i < start + 1 := by
        intro i hi
        rcases List.mem_append.mp hi with hi | hi
        · exact Nat.lt_succ_of_lt (hbefore i hi)
        · rw [List.mem_singleton.mp hi]
          exact Nat.lt_succ_self _
      have ih := ih hnext
      rw [append_assoc, List.singleton_append, List.length_append, List.length_singleton] at ih
      have hstores : stores side_table start (id :: ids)
          = (start, .Store ⟨a, 8, false⟩) :: stores side_table (start + 1) ids := by
        rw [stores, hop]
      have hcovered := @covered_iff side_table (start + 1) ids a
      have hmark : (sweep ((stores side_table (start + 1) ids).map snd)).2.contains a
          = (ids.map (key side_table)).contains (some a) := by
        rw [Bool.eq_iff_iff, List.contains_iff_mem, List.contains_iff_mem, hcovered]
      rw [hstores, map_cons, map_cons, idxOf?_append_cons hfresh, sweep_store, hmark]
      unfold stays
      rw [hkey]
      dsimp only
      cases (ids.map (key side_table)).contains (some a) with
      | true =>
        -- covered: the iterator stands at a later store
        rw [Bool.not_true, placesFrom_false, placesFrom_false, if_neg, ih]
        intro h
        have := le_of_mem_placesFrom (List.mem_of_mem_head? (Option.mem_def.mpr h))
        omega
      | false =>
        rw [Bool.not_false, placesFrom_true, placesFrom_true, List.head?_cons, if_pos rfl,
          List.tail_cons, ih]
    · have hstores : stores side_table start (id :: ids) = stores side_table (start + 1) ids := by
        rw [stores, hop]
      have hnone : (before ++ (stores side_table (start + 1) ids).map fst).idxOf? start = none := by
        rw [List.idxOf?_eq_none_iff, List.mem_append, not_or]
        refine ⟨hfresh, ?_⟩
        intro h
        have := stores_place h
        omega
      rw [hstores, hnone]
      unfold stays
      rw [hkey]
      dsimp only [placesFrom]
      rw [ih fun i hi => Nat.lt_succ_of_lt (hbefore i hi)]

theorem preserved_nodes_nil (store_iter rest : List Nat) :
    preserved_nodes [] store_iter rest = rest := by
  induction rest with
  | nil => rfl
  | cons i rest ih =>
    unfold preserved_nodes
    rw [List.idxOf?_nil]
    dsimp only
    rw [ih]

/-- The pass keeps what is no store and the last store of each address number. -/
theorem dse_block_eq (side_table : InstructionSideTable) (nodes : List IrNodeId) :
    dse_block side_table nodes = placesFrom 0 (stays side_table nodes) := by
  have hall := @preserved_nodes_eq side_table nodes 0 [] (by simp)
  rw [List.nil_append, ← List.range_eq_range'] at hall
  unfold dse_block
  dsimp only
  split
  · rename_i hempty
    rw [List.isEmpty_iff] at hempty
    rw [hempty] at hall
    rw [← hall]
    exact (preserved_nodes_nil _ _).symm
  · rw [dse_block_impl_eq]
    exact hall

/-! ## The sequence without the dead stores -/

/-- The instructions of the nodes, with the marks of the nodes. -/
def marked (side_table : InstructionSideTable) (nodes : List (IrNodeId × Bool)) :
    List (Instruction × Bool) :=
  nodes.filterMap fun node => (side_table.lookup node.1).map fun instr => (instr, node.2)

/-- The nodes, marked by their places being listed. -/
def listed (idxs : List Nat) (nodes : List IrNodeId) (start : Nat) : List (IrNodeId × Bool) :=
  (nodes.zipIdx start).map fun node => (node.1, decide (node.2 ∈ idxs))

/-- The instructions at the places, in order. -/
def executed (side_table : InstructionSideTable) (nodes : List IrNodeId) (idxs : List Nat) :
    List Instruction :=
  idxs.filterMap fun i => nodes[i]?.bind fun id => side_table.lookup id

/-- From `s` the sequence that `dse_block` keeps ends in the state of the whole
sequence, and reads the same from memory on the way. -/
def PreservesMemory {L V : Type} (P : Processor L V) (side_table : InstructionSideTable)
    (nodes : List IrNodeId) (s : L → V) : Prop :=
  P.run (executed side_table nodes (dse_block side_table nodes)) s
      = P.run (nodes.filterMap fun id => side_table.lookup id) s ∧
    SameReads P.toMachine P.memory
      (marked side_table (listed (dse_block side_table nodes) nodes 0)) s s

theorem stays_length (nodes : List IrNodeId) : (stays side_table nodes).length = nodes.length := by
  induction nodes with
  | nil => rfl
  | cons id ids ih =>
    unfold stays
    rw [length_cons, length_cons, ih]

theorem mem_placesFrom_cons {start i : Nat} {b : Bool} {bs : List Bool} (h : start < i) :
    i ∈ placesFrom start (b :: bs) ↔ i ∈ placesFrom (start + 1) bs := by
  cases b with
  | true =>
    rw [placesFrom_true, mem_cons]
    exact or_iff_right (by omega)
  | false => rw [placesFrom_false]

variable {nodes : List IrNodeId}

theorem listed_placesFrom : ∀ {bs : List Bool} {start : Nat},
    bs.length = nodes.length → listed (placesFrom start bs) nodes start = nodes.zip bs := by
  induction nodes with
  | nil =>
    intro bs start _
    rfl
  | cons id ids ih =>
    intro bs start hlen
    cases bs with
    | nil => cases hlen
    | cons b bs =>
      have ih := @ih bs (start + 1) (by simpa using hlen)
      have hhead : decide (start ∈ placesFrom start (b :: bs)) = b := by
        cases b with
        | true => simp [placesFrom_true]
        | false =>
          rw [placesFrom_false, decide_eq_false_iff_not]
          intro h
          have := le_of_mem_placesFrom h
          omega
      unfold listed at ih ⊢
      rw [List.zipIdx_cons, map_cons, zip_cons_cons, hhead, ← ih]
      congr 1
      apply List.map_congr_left
      rintro ⟨id', i⟩ hmem
      have hle := List.le_snd_of_mem_zipIdx hmem
      simp only [mem_placesFrom_cons (show start < i by omega)]

theorem executed_placesFrom {ids : List IrNodeId} : ∀ {pre : List IrNodeId} {bs : List Bool},
    bs.length = ids.length → executed side_table (pre ++ ids) (placesFrom pre.length bs)
      = kept (marked side_table (ids.zip bs)) := by
  induction ids with
  | nil =>
    intro pre bs hlen
    rw [List.eq_nil_of_length_eq_zero hlen]
    rfl
  | cons id ids ih =>
    intro pre bs hlen
    cases bs with
    | nil => cases hlen
    | cons b bs =>
      have ih := @ih (pre ++ [id]) bs (by simpa using hlen)
      rw [append_assoc, List.singleton_append, List.length_append, List.length_singleton] at ih
      have hat : (pre ++ id :: ids)[pre.length]? = some id := by simp
      unfold executed marked kept at ih ⊢
      cases b with
      | true =>
        rw [placesFrom_true, filterMap_cons, hat, Option.bind_some, ih, zip_cons_cons,
          filterMap_cons]
        cases side_table.lookup id with
        | none => rfl
        | some instr => rfl
      | false =>
        rw [placesFrom_false, ih, zip_cons_cons, filterMap_cons]
        cases side_table.lookup id with
        | none => rfl
        | some instr => rfl

theorem marked_fst : ∀ {bs : List Bool}, bs.length = nodes.length →
    (marked side_table (nodes.zip bs)).map fst = nodes.filterMap fun id => side_table.lookup id := by
  induction nodes with
  | nil =>
    intro bs _
    rfl
  | cons id ids ih =>
    intro bs hlen
    cases bs with
    | nil => cases hlen
    | cons b bs =>
      have ih := @ih bs (by simpa using hlen)
      unfold marked at ih ⊢
      rw [zip_cons_cons, filterMap_cons, filterMap_cons]
      cases side_table.lookup id with
      | none => exact ih
      | some instr =>
        dsimp only [Option.map_some]
        rw [map_cons, ih]

/-- In the run of the whole sequence from `s`, no instruction that stays reads a
location that a dropped store wrote since the last that stays did, and no location
is left so at the end. -/
def Overwritten {L V : Type} (P : Processor L V) (side_table : InstructionSideTable)
    (nodes : List IrNodeId) (s : L → V) : Prop :=
  Unread P.toMachine (fun _ => Set.univ)
    ((marked side_table (nodes.zip (stays side_table nodes))).map (.ofMark P.toMachine)) s ∅

/-- In a run where everything a dropped store writes is written again before it is
read and before the end, the kept sequence preserves memory. -/
theorem preserves_memory_of_overwritten {L V : Type} (P : Processor L V)
    (side_table : InstructionSideTable) (nodes : List IrNodeId) (s : L → V)
    (h : Overwritten P side_table nodes s) : PreservesMemory P side_table nodes s := by
  have hlen := @stays_length side_table nodes
  have hreads : SameReads P.toMachine P.memory
      (marked side_table (nodes.zip (stays side_table nodes))) s s :=
    Unread.sameReads h fun _ _ => rfl
  have hexecuted := @executed_placesFrom side_table _ [] _ hlen
  unfold PreservesMemory
  rw [dse_block_eq, listed_placesFrom hlen]
  refine ⟨?_, hreads⟩
  have hrun := hreads.run_eq
  rw [marked_fst hlen] at hrun
  rw [hrun]
  exact congrArg (P.run · s) hexecuted

/-- `mov [rax], r`. -/
def storeReg (r : RegId) : Instruction := plain64 .Mov [.MemSib ⟨0⟩ none .X1 0, .Reg r]

/-- `mov [rax], rbx`, `mov [rax], rdx`. -/
def storeTwice : InstructionSideTable :=
  [(⟨1, IrNodeId.one_ne⟩, storeReg ⟨3⟩), (⟨2, IrNodeId.two_ne⟩, storeReg ⟨2⟩)]

/-- The store writes the quad at `rax`. -/
theorem storeReg_writes (r : RegId) (s : Cells) (c : Cell) :
    c ∈ movesAndPushes.writes (storeReg r) s ↔ c ∈ quad (effective s ⟨0⟩ 0) := by
  have hwrites : c ∈ movesAndPushes.writes (storeReg r) s ↔
      ((storeQuad (effective s ⟨0⟩ 0) (s (.reg r))).lookup c).isSome := Iff.rfl
  rw [hwrites, Assoc.lookup_isSome]
  unfold Assoc.keys storeQuad
  rw [List.map_map]
  exact Iff.rfl

/-- The first store goes, and the second one writes the same quad. -/
theorem storeTwice_preserved :
    PreservesMemory movesAndPushes storeTwice [⟨1, by decide⟩, ⟨2, by decide⟩] fun _ => 0 := by
  apply preserves_memory_of_overwritten
  have hmarked : marked storeTwice ([⟨1, by decide⟩, ⟨2, by decide⟩].zip
      (stays storeTwice [⟨1, by decide⟩, ⟨2, by decide⟩]))
      = [(storeReg ⟨3⟩, false), (storeReg ⟨2⟩, true)] := rfl
  have hstale : ∀ c, c ∈ (Rewrite.ofMark movesAndPushes.toMachine (storeReg ⟨3⟩, false)).spread
      movesAndPushes.toMachine (fun _ => 0) ∅ → c ∈ quad 0 := by
    rintro c (⟨-, hc⟩ | ⟨hc, -⟩)
    · exact (storeReg_writes ⟨3⟩ _ c).mp hc
    · cases hc
  unfold Overwritten
  rw [hmarked]
  refine ⟨fun i hi => absurd hi (Option.not_mem_none i), ?_, ?_⟩
  · intro i hi c hc hmem
    cases hi
    obtain ⟨k, -, rfl⟩ := List.mem_map.mp (hstale c hmem)
    have hreg : Cell.byte (0 + BitVec.ofNat 64 k) ∈ [Cell.reg ⟨0⟩, Cell.reg ⟨2⟩] := hc
    simp at hreg
  · rintro c (⟨hkept, -⟩ | ⟨hmem, hnot⟩) _
    · cases hkept
    · exact hnot _ rfl ((storeReg_writes ⟨2⟩ _ c).mpr (hstale c hmem))

/-- `mov [rax], rbx`, `mov rcx, [rax]`, `mov [rax], rdx`. -/
def loadBetween : InstructionSideTable :=
  [(⟨1, IrNodeId.one_ne⟩, plain64 .Mov [.MemSib ⟨0⟩ none .X1 0, .Reg ⟨3⟩]),
    (⟨2, IrNodeId.two_ne⟩, plain64 .Mov [.Reg ⟨1⟩, .MemSib ⟨0⟩ none .X1 0]),
    (⟨3, IrNodeId.three_ne⟩, plain64 .Mov [.MemSib ⟨0⟩ none .X1 0, .Reg ⟨2⟩])]

/-- The first store goes, and the load reads what was there before. -/
theorem load_between_changes : ∃ s,
    ¬ PreservesMemory movesAndPushes loadBetween [⟨1, by decide⟩, ⟨2, by decide⟩, ⟨3, by decide⟩] s := by
  refine ⟨fun c => if c = .reg ⟨3⟩ then 1 else 0, fun h => ?_⟩
  have hblock : dse_block loadBetween [⟨1, by decide⟩, ⟨2, by decide⟩, ⟨3, by decide⟩] = [1, 2] := by
    decide
  have hreads := h.2
  rw [hblock] at hreads
  have hload := hreads.1 (.byte 0) ?_ ⟨0, rfl⟩
  · revert hload
    decide
  · change Cell.byte 0 ∈ cellsRead _ _
    decide

end paideia_as_ir.opt.dse
