-- Labelled code whose runs end in an exit, and rewritings that put other code in the
-- place of whole windows: where every window that a run comes to is replaced by code
-- that does the same from there, the rewritten program does the same as a whole.
import Mathlib.Data.List.Nodup

namespace Windows

/-- What an item does: it goes on, jumps, or leaves the code, and lets others see
something on the way. -/
inductive Effect (L O S E : Type) where
  | next (seen : List O) (s : S)
  | jump (label : L) (s : S)
  | exit (seen : List O) (e : E)
  | stuck

structure Machine (I L O S E : Type) where
  label : I → L
  act : I → S → Effect L O S E

/-- What happens in a run: it comes to an item, it lands on a label, others see
something. -/
inductive Event (I L O S : Type) where
  | visit (i : I) (s : S)
  | land (l : L)
  | seen (o : O)

def Event.observed {I L O S : Type} : Event I L O S → Option O
  | .seen o => some o
  | _ => none

/-- What others see of a run. -/
def observed {I L O S : Type} (events : List (Event I L O S)) : List O :=
  events.filterMap Event.observed

variable {I L O S E : Type}

@[simp] theorem observed_visit (i : I) (s : S) (events : List (Event I L O S)) :
    observed (.visit i s :: events) = observed events := rfl

@[simp] theorem observed_land (l : L) (events : List (Event I L O S)) :
    observed (.land l :: events) = observed events := rfl

@[simp] theorem observed_seen (seen : List O) (events : List (Event I L O S)) :
    observed (seen.map .seen ++ events) = seen ++ observed events := by
  unfold observed
  rw [List.filterMap_append, List.filterMap_map]
  exact congrArg (· ++ _) (List.filterMap_some ..)

@[simp] theorem observed_only (seen : List O) :
    observed (seen.map (Event.seen : O → Event I L O S)) = seen := by
  unfold observed
  rw [List.filterMap_map]
  exact List.filterMap_some ..

namespace Machine

variable (M : Machine I L O S E)

/-- The code from the item with the label on. -/
def target [DecidableEq L] (l : L) : List I → Option (List I)
  | [] => none
  | i :: rest => if M.label i = l then some (i :: rest) else target l rest

/-- A run of the program `P` from a piece of its code to an exit. -/
inductive Ends [DecidableEq L] (P : List I) :
    List I → S → List (Event I L O S) → E → Prop
  | exit {i rest s seen e} : M.act i s = .exit seen e →
      Ends P (i :: rest) s (.visit i s :: seen.map .seen) e
  | next {i rest s seen s' events e} : M.act i s = .next seen s' → Ends P rest s' events e →
      Ends P (i :: rest) s (.visit i s :: (seen.map .seen ++ events)) e
  | jump {i rest s l s' code events e} : M.act i s = .jump l s' → M.target l P = some code →
      Ends P code s' events e → Ends P (i :: rest) s (.visit i s :: .land l :: events) e

/-- A run of the whole program from a label. -/
def Executes [DecidableEq L] (P : List I) (entry : L) (s : S) (events : List (Event I L O S))
    (e : E) : Prop :=
  ∃ code rest, M.target entry P = some code ∧ M.Ends P code s rest e ∧ events = .land entry :: rest

end Machine

variable {M : Machine I L O S E} [DecidableEq L] {P rest : List I} {i : I} {s s' : S}
  {events : List (Event I L O S)} {e e' : E} {seen : List O}

theorem Machine.Ends.of_next (h : M.Ends P (i :: rest) s events e) (hact : M.act i s = .next seen s') :
    ∃ events', M.Ends P rest s' events' e ∧ observed events = seen ++ observed events' := by
  cases h with
  | exit h => cases hact.symm.trans h
  | next h hends =>
    cases hact.symm.trans h
    exact ⟨_, hends, by simp⟩
  | jump h => cases hact.symm.trans h

theorem Machine.Ends.of_exit (h : M.Ends P (i :: rest) s events e) (hact : M.act i s = .exit seen e') :
    e = e' ∧ observed events = seen := by
  cases h with
  | exit h =>
    cases hact.symm.trans h
    exact ⟨rfl, by simp⟩
  | next h => cases hact.symm.trans h
  | jump h => cases hact.symm.trans h

/-! ## Blocks -/

/-- An item that stays, or a window with the code that takes its place. -/
inductive Block (I : Type) where
  | keep (i : I)
  | window (old new : List I)

namespace Block

def old : Block I → List I
  | .keep i => [i]
  | .window old _ => old

def new : Block I → List I
  | .keep i => [i]
  | .window _ new => new

end Block

def before (blocks : List (Block I)) : List I := blocks.flatMap Block.old

def after (blocks : List (Block I)) : List I := blocks.flatMap Block.new

@[simp] theorem before_nil : before ([] : List (Block I)) = [] := rfl

@[simp] theorem after_nil : after ([] : List (Block I)) = [] := rfl

@[simp] theorem before_cons (b : Block I) (bs : List (Block I)) :
    before (b :: bs) = b.old ++ before bs := rfl

@[simp] theorem after_cons (b : Block I) (bs : List (Block I)) :
    after (b :: bs) = b.new ++ after bs := rfl

/-- Blocks whose windows are not empty and bind no label that they did not bind
before; every label is bound once. -/
structure WellFormed (M : Machine I L O S E) (blocks : List (Block I)) : Prop where
  nodup : ((before blocks).map M.label).Nodup
  nonempty : ∀ b ∈ blocks, b.old ≠ []
  labels : ∀ b ∈ blocks, ∀ i ∈ b.new, M.label i ∈ b.old.map M.label

omit [DecidableEq L] in
theorem WellFormed.perm {blocks blocks' : List (Block I)} (h : WellFormed M blocks)
    (hp : blocks.Perm blocks') : WellFormed M blocks' where
  nodup := ((hp.flatMap_right Block.old).map M.label).nodup_iff.mp h.nodup
  nonempty b hb := h.nonempty b (hp.mem_iff.mpr hb)
  labels b hb := h.labels b (hp.mem_iff.mpr hb)

/-- The label stands at the beginning of a block, before and after. -/
def Landing (M : Machine I L O S E) (blocks : List (Block I)) (l : L) : Prop :=
  ∃ b ∈ blocks, b.old.head?.map M.label = some l ∧ b.new.head?.map M.label = some l

/-- Whatever the window comes to from `s`, with any code around it, the code in its
place comes to as well. -/
def Replaces (M : Machine I L O S E) (R : E → E → Prop) (old new : List I) (s : S) : Prop :=
  ∀ {P rest events e}, M.Ends P (old ++ rest) s events e →
    ∀ P' rest', ∃ events' e', M.Ends P' (new ++ rest') s events' e' ∧ R e e' ∧
      observed events' = observed events

variable {l : L} {blocks : List (Block I)}

theorem target_append_of_notMem {a b : List I} (h : l ∉ a.map M.label) :
    M.target l (a ++ b) = M.target l b := by
  induction a with
  | nil => rfl
  | cons i a ih =>
    rw [List.map_cons, List.mem_cons, not_or] at h
    rw [List.cons_append, Machine.target, if_neg (Ne.symm h.1), ih h.2]

theorem target_head {a b : List I} (h : a.head?.map M.label = some l) :
    M.target l (a ++ b) = some (a ++ b) := by
  cases a with
  | nil => cases h
  | cons i a =>
    rw [List.head?_cons, Option.map_some] at h
    rw [List.cons_append, Machine.target, if_pos (Option.some.inj h)]

/-- A landing leads to the same blocks before and after. -/
theorem target_landing (hwf : WellFormed M blocks) (hland : Landing M blocks l) :
    ∃ pre bs, blocks = pre ++ bs ∧ M.target l (before blocks) = some (before bs) ∧
      M.target l (after blocks) = some (after bs) := by
  obtain ⟨b, hb, hold, hnew⟩ := hland
  obtain ⟨pre, bs, rfl⟩ := List.append_of_mem hb
  refine ⟨pre, b :: bs, rfl, ?_, ?_⟩
  all_goals
    have hlold : l ∈ (before (b :: bs)).map M.label := by
      rw [before_cons, List.map_append, List.mem_append]
      refine .inl ?_
      obtain ⟨i, hi, rfl⟩ := Option.map_eq_some_iff.mp hold
      exact List.mem_map_of_mem (List.mem_of_mem_head? hi)
    have hpre : l ∉ (before pre).map M.label := by
      have hnodup := hwf.nodup
      unfold before at hnodup hlold ⊢
      rw [List.flatMap_append, List.map_append, List.nodup_append] at hnodup
      intro hmem
      exact hnodup.2.2 l hmem l hlold rfl
  · have := target_append_of_notMem (b := before (b :: bs)) hpre
    unfold before at this ⊢
    rw [List.flatMap_append, this]
    exact target_head hold
  · have hpre' : l ∉ (after pre).map M.label := by
      intro hmem
      obtain ⟨i, hi, rfl⟩ := List.mem_map.mp hmem
      obtain ⟨c, hc, hic⟩ := List.mem_flatMap.mp hi
      obtain ⟨j, hj, heq⟩ := List.mem_map.mp (hwf.labels c (List.mem_append_left _ hc) i hic)
      refine hpre ?_
      rw [← heq]
      exact List.mem_map_of_mem (List.mem_flatMap.mpr ⟨c, hc, hj⟩)
    have := target_append_of_notMem (b := after (b :: bs)) hpre'
    unfold after at this ⊢
    rw [List.flatMap_append, this]
    exact target_head hnew

/-- What a run must keep to: it lands on the beginnings of blocks, and a window that
it comes to is replaced by code that does the same from there. -/
def Meets (M : Machine I L O S E) (R : E → E → Prop) (blocks : List (Block I)) :
    Event I L O S → Prop
  | .visit i s => ∀ old new, .window old new ∈ blocks → old.head? = some i → Replaces M R old new s
  | .land l => Landing M blocks l
  | .seen _ => True

theorem Meets.perm {R : E → E → Prop} {blocks' : List (Block I)} {event : Event I L O S}
    (h : Meets M R blocks event) (hp : blocks.Perm blocks') : Meets M R blocks' event := by
  cases event with
  | visit i s => exact fun old new hmem => h old new (hp.mem_iff.mpr hmem)
  | land l =>
    obtain ⟨b, hb, hstart⟩ := h
    exact ⟨b, hp.mem_iff.mp hb, hstart⟩
  | seen o => trivial

/-- The induction is on the run: it stands before a block, since it leaves every
window that it comes to by an exit. -/
theorem ends_after {R : E → E → Prop} (hR : ∀ e, R e e) (hwf : WellFormed M blocks) {code : List I}
    (h : M.Ends (before blocks) code s events e) :
    ∀ {pre bs}, blocks = pre ++ bs → code = before bs →
      (∀ event ∈ events, Meets M R blocks event) →
      ∃ events' e', M.Ends (after blocks) (after bs) s events' e' ∧ R e e' ∧
        observed events' = observed events := by
  -- at a window its own replacement answers
  have hwindow : ∀ {bs old new s events e i rest}, Block.window old new ∈ blocks →
      M.Ends (before blocks) (i :: rest) s events e → i :: rest = before (.window old new :: bs) →
      Meets M R blocks (.visit i s) →
      ∃ events' e', M.Ends (after blocks) (after (.window old new :: bs)) s events' e' ∧ R e e' ∧
        observed events' = observed events := by
    intro bs old new s events e i rest hmem hends hcode hmeets
    have hhead : old.head? = some i := by
      cases old with
      | nil => exact absurd rfl (hwf.nonempty _ hmem)
      | cons j old =>
        rw [before_cons] at hcode
        exact congrArg some (List.cons.inj hcode).1.symm
    rw [hcode, before_cons] at hends
    rw [after_cons]
    exact hmeets old new hmem hhead hends (after blocks) (after bs)
  induction h with
  | @exit i rest s seen e hact =>
    intro pre bs hblocks hcode hmeets
    cases bs with
    | nil => cases hcode
    | cons b bs =>
      cases b with
      | window old new =>
        exact hwindow (by simp [hblocks]) (.exit hact) hcode (hmeets _ (List.mem_cons_self ..))
      | keep j =>
        obtain ⟨rfl, rfl⟩ := List.cons.inj hcode
        exact ⟨_, e, .exit hact, hR e, rfl⟩
  | @next i rest s seen s' events e hact hends ih =>
    intro pre bs hblocks hcode hmeets
    cases bs with
    | nil => cases hcode
    | cons b bs =>
      cases b with
      | window old new =>
        exact hwindow (by simp [hblocks]) (.next hact hends) hcode (hmeets _ (List.mem_cons_self ..))
      | keep j =>
        obtain ⟨rfl, rfl⟩ := List.cons.inj hcode
        obtain ⟨events', e', hends', hRe, hobs⟩ := @ih (pre ++ [.keep i]) bs (by simp [hblocks]) rfl
          (fun event hevent => hmeets event (by simp [hevent]))
        exact ⟨_, e', .next hact hends', hRe, by simp [hobs]⟩
  | @jump i rest s l s' code events e hact htarget hends ih =>
    intro pre bs hblocks hcode hmeets
    cases bs with
    | nil => cases hcode
    | cons b bs =>
      cases b with
      | window old new =>
        exact hwindow (by simp [hblocks]) (.jump hact htarget hends) hcode (hmeets _ (.head _))
      | keep j =>
        obtain ⟨rfl, rfl⟩ := List.cons.inj hcode
        obtain ⟨pre', bs', hblocks', hbefore, hafter⟩ := target_landing hwf
          (show Landing M blocks l from hmeets (.land l) (by simp))
        cases htarget.symm.trans hbefore
        obtain ⟨events', e', hends', hRe, hobs⟩ := ih hblocks' rfl
          (fun event hevent => hmeets event (by simp [hevent]))
        exact ⟨_, e', .jump hact hafter hends', hRe, by simp [hobs]⟩

/-- A run of a program, and the run of the rewritten program from the same label. -/
theorem executes_after {R : E → E → Prop} (hR : ∀ e, R e e) (hwf : WellFormed M blocks) {entry : L}
    (h : M.Executes (before blocks) entry s events e)
    (hmeets : ∀ event ∈ events, Meets M R blocks event) :
    ∃ events' e', M.Executes (after blocks) entry s events' e' ∧ R e e' ∧
      observed events' = observed events := by
  obtain ⟨code, rest, htarget, hends, rfl⟩ := h
  obtain ⟨pre, bs, hblocks, hbefore, hafter⟩ := target_landing hwf
    (show Landing M blocks entry from hmeets (.land entry) (.head _))
  cases htarget.symm.trans hbefore
  obtain ⟨events', e', hends', hRe, hobs⟩ := ends_after hR hwf hends hblocks rfl
    (fun event hevent => hmeets event (.tail _ hevent))
  exact ⟨_, e', ⟨_, events', hafter, hends', rfl⟩, hRe, hobs⟩

end Windows
