-- The loop of `schedule_block_impl` with its flush of a barrier, where it puts each
-- instruction, and the sequence that the encoder emits after the pass.
import Mathlib.Data.Fintype.Perm
import PaideiaAs.Ir.Schedule
import PaideiaAs.Lib.Neighbours

namespace paideia_as_ir.opt.schedule

open List (append_assoc map_cons map_map pairwise_map)

/-! ## The loop -/

/-- What the flush pushes, up to the first barrier or the end, and what is left. -/
def flush : List (Nat × InstructionClass) → List Nat × List (Nat × InstructionClass)
  | [] => ([], [])
  | (idx, class_) :: rest =>
    if class_.is_barrier then ([idx], rest) else (idx :: (flush rest).1, (flush rest).2)

theorem flush_of_barrier {idx : Nat} {class_ : InstructionClass} (h : class_.is_barrier = true)
    (rest : List (Nat × InstructionClass)) : flush ((idx, class_) :: rest) = ([idx], rest) :=
  if_pos h

/-- The loop as it is written, with what has been pushed so far. `gas` bounds its
rounds, each of which takes at least one instruction. -/
def schedule_loop : Nat → List (Nat × InstructionClass) → List Nat → List Nat
  | 0, _, result => result
  | _ + 1, [], result => result
  | gas + 1, (idx, class_) :: rest, result =>
    if class_.is_barrier then
      let (pushed, left) := flush ((idx, class_) :: rest)
      schedule_loop gas left (result ++ pushed)
    else
      match rest with
      | [] => schedule_loop gas [] (result ++ [idx])
      | next :: rest' =>
        if !next.2.is_barrier && next.2.latency > class_.latency then
          schedule_loop gas rest' (result ++ [next.1, idx])
        else schedule_loop gas rest (result ++ [idx])

/-- A flush starts from a barrier, so it pushes that alone. -/
theorem schedule_loop_eq (gas : Nat) (instructions : List (Nat × InstructionClass))
    (result : List Nat) (hgas : instructions.length ≤ gas) :
    schedule_loop gas instructions result = result ++ schedule_block_impl instructions := by
  fun_induction schedule_loop gas instructions result with
  | case1 instructions result =>
    rw [List.length_eq_zero_iff.mp (Nat.le_zero.mp hgas)]
    exact (List.append_nil _).symm
  | case2 gas result => exact (List.append_nil _).symm
  | case3 gas idx class_ rest result hbarrier pushed left hflush ih =>
    rw [flush_of_barrier hbarrier] at hflush
    cases hflush
    rw [ih (Nat.le_of_succ_le_succ hgas), append_assoc]
    cases rest with
    | nil => rfl
    | cons next rest =>
      have hstay : ¬ trades class_ next.2 := by
        unfold trades
        simp [hbarrier]
      rw [schedule_block_impl, if_neg hstay]
      rfl
  | case4 gas idx class_ result hbarrier ih =>
    rw [ih (Nat.zero_le gas), append_assoc]
    rfl
  | case5 gas idx class_ result hbarrier next rest htrade ih =>
    have hturn : trades class_ next.2 := by
      unfold trades
      simpa [hbarrier] using htrade
    rw [ih (Nat.le_of_lt (Nat.le_of_succ_le_succ hgas)), append_assoc, schedule_block_impl,
      if_pos hturn]
    rfl
  | case6 gas idx class_ result hbarrier next rest htrade ih =>
    have hstay : ¬ trades class_ next.2 := by
      unfold trades
      simpa [hbarrier] using htrade
    rw [ih (Nat.le_of_succ_le_succ hgas), append_assoc, schedule_block_impl, if_neg hstay]
    rfl

/-! ## Where an instruction goes -/

def tradesAt (a b : Nat × InstructionClass) : Bool := trades a.2 b.2

theorem schedule_block_impl_eq (instructions : List (Nat × InstructionClass)) :
    schedule_block_impl instructions = (Neighbours.turn tradesAt instructions).map Prod.fst := by
  fun_induction schedule_block_impl instructions with
  | case1 => rfl
  | case2 idx class_ => rfl
  | case3 idx class_ next_idx next rest h ih =>
    have hturn : tradesAt (idx, class_) (next_idx, next) = true := h
    rw [Neighbours.turn, if_pos hturn, map_cons, map_cons, ih]
  | case4 idx class_ next_idx next rest h ih =>
    have hstay : ¬ tradesAt (idx, class_) (next_idx, next) := h
    rw [Neighbours.turn, if_neg hstay, map_cons, ih]

/-- A permutation that keeps every barrier at its place, takes no instruction past a
barrier and moves none by more than one place. -/
structure KeepsBarriers (instructions : List (Nat × InstructionClass))
    (σ : Equiv.Perm (Fin instructions.length)) : Prop where
  barrier : ∀ k, (instructions.get k).2.is_barrier = true → σ k = k
  side : ∀ b k, (instructions.get b).2.is_barrier = true → (σ k < b ↔ k < b)
  near : ∀ k, (σ k : Nat) ≤ k + 1 ∧ (k : Nat) ≤ σ k + 1

theorem barrier_trades_not {a : Nat × InstructionClass} (h : a.2.is_barrier = true)
    (b : Nat × InstructionClass) : tradesAt a b = false ∧ tradesAt b a = false := by
  unfold tradesAt trades
  simp [h]

theorem places_keep_barriers (instructions : List (Nat × InstructionClass)) :
    KeepsBarriers instructions (Neighbours.places tradesAt instructions) := by
  have hfixed : ∀ k : Fin instructions.length, (instructions.get k).2.is_barrier = true →
      Neighbours.partner tradesAt instructions k = k := by
    intro k h
    apply Neighbours.partner_fixed
    · exact fun x => (barrier_trades_not h x).1
    · exact fun x => (barrier_trades_not h x).2
    · exact List.getElem?_eq_getElem k.isLt
  constructor
  · intro k h
    exact Fin.ext (hfixed k h)
  · intro b k h
    exact Neighbours.partner_lt_iff (hfixed b h) k
  · intro k
    exact Neighbours.partner_near tradesAt instructions k

/-! ## The sequence after the pass -/

/-- The emission orders stay at their places. -/
theorem turned_orders {g : Entry → Nat} {l : List Entry}
    (h : (withPartners l).map (fun a => (a.1, a.2.emission_order)) = l.map fun e => (e, g e)) :
    (turned l).map g = l.map (·.emission_order) := by
  fun_induction turned l with
  | case1 => rfl
  | case2 x =>
    rw [withPartners, List.map_singleton, List.map_singleton, List.singleton_inj,
      Prod.mk.injEq] at h
    rw [List.map_singleton, ← h.2]
    rfl
  | case3 x y rest ht ih =>
    rw [withPartners, if_pos ht, map_cons, map_cons, map_cons, map_cons, List.cons.injEq,
      List.cons.injEq, Prod.mk.injEq, Prod.mk.injEq] at h
    obtain ⟨⟨-, hx⟩, ⟨-, hy⟩, h⟩ := h
    rw [map_cons, map_cons, ih h, ← hx, ← hy]
    rfl
  | case4 x y rest ht ih =>
    rw [withPartners, if_neg ht, map_cons, map_cons, List.cons.injEq, Prod.mk.injEq] at h
    obtain ⟨⟨-, hx⟩, h⟩ := h
    rw [map_cons, ih h, ← hx]
    rfl

/-- The entry after the pass. -/
def reordered (side_table : InstructionSideTable) (e : Entry) : Entry :=
  { e with emission_order := orderAfter (exchanged (emitted side_table)) e }

theorem reordered_orders (side_table : InstructionSideTable) :
    ((turned (emitted side_table)).map (reordered side_table)).map (·.emission_order)
      = (emitted side_table).map (·.emission_order) := by
  rw [map_map]
  exact turned_orders (withPartners_eq _ (emitted_ids_nodup side_table))

variable {side_table : InstructionSideTable}

section

variable (h : (side_table.entries.map (·.emission_order)).Nodup)

include h

theorem emitted_orders_sorted : ((emitted side_table).map (·.emission_order)).Pairwise (· < ·) := by
  have hnodup : ((emitted side_table).map (·.emission_order)).Nodup :=
    ((emitted_perm side_table).map _).nodup_iff.mpr h
  rw [pairwise_map]
  apply ((emitted_sorted side_table).and (pairwise_map.mp hnodup)).imp
  rintro a b ⟨hlt, hne⟩
  rcases Prod.Lex.toLex_lt_toLex.mp hlt with h | h
  · exact h
  · exact absurd h.1 hne

theorem reordered_sorted : ((turned (emitted side_table)).map (reordered side_table)).Pairwise
      fun a b => a.key < b.key := by
  have horders := emitted_orders_sorted h
  rw [← reordered_orders side_table, pairwise_map] at horders
  exact horders.imp fun hlt => Prod.Lex.toLex_lt_toLex.mpr (.inl hlt)

theorem emitted_apply : emitted (apply side_table).2
      = (turned (emitted side_table)).map (reordered side_table) := by
  have hasymm : Std.Asymm fun a b : Entry => a.key < b.key :=
    ⟨fun _ _ hab hba => lt_asymm hab hba⟩
  have hperm : (emitted (apply side_table).2).Perm
      ((turned (emitted side_table)).map (reordered side_table)) := by
    refine (emitted_perm _).trans ?_
    rw [apply_entries]
    exact (((turned_perm _).trans (emitted_perm side_table)).map (reordered side_table)).symm
  exact (emitted_sorted _).eq_of_mem_iff (reordered_sorted h) fun {e} => hperm.mem_iff

theorem order_apply : order (apply side_table).2 = scheduled side_table := by
  rw [scheduled_eq]
  unfold order
  rw [emitted_apply h, map_map]
  rfl

theorem orders_apply : ((apply side_table).2.entries.map (·.emission_order)).Perm
      (side_table.entries.map (·.emission_order)) := by
  have hafter := ((emitted_perm (apply side_table).2).map (·.emission_order)).symm
  rw [emitted_apply h, reordered_orders] at hafter
  exact hafter.trans ((emitted_perm side_table).map (·.emission_order))

end

/-- The schedule of a block keeps its barriers, and the pass makes the encoder emit the
schedule. -/
theorem schedule_block_keeps_barriers :
    (∀ instructions : List (Nat × InstructionClass),
      schedule_loop instructions.length instructions [] = schedule_block_impl instructions ∧
      ∃ σ : Equiv.Perm (Fin instructions.length), KeepsBarriers instructions σ ∧
        schedule_block_impl instructions = List.ofFn fun k => (instructions.get (σ k)).1) ∧
    ∀ side_table : InstructionSideTable, (side_table.entries.map (·.emission_order)).Nodup →
      order (apply side_table).2 = scheduled side_table ∧
      ((apply side_table).2.entries.map (·.emission_order)).Perm
        (side_table.entries.map (·.emission_order)) := by
  constructor
  · intro instructions
    refine ⟨schedule_loop_eq _ instructions [] (Nat.le_refl _), ?_⟩
    refine ⟨Neighbours.places tradesAt instructions, places_keep_barriers instructions, ?_⟩
    rw [schedule_block_impl_eq, Neighbours.turn_eq_ofFn, List.map_ofFn]
    rfl
  · intro side_table h
    exact ⟨order_apply h, orders_apply h⟩

end paideia_as_ir.opt.schedule
