-- A walk of the emitter over a program: matches at any depth, and between them
-- instructions on ids from the arena and on synthetic ids.
import PaideiaAs.Elaborator.MatchRows
import Mathlib.Data.List.Perm.Basic

namespace paideia_as_elaborator.emit_walker

open paideia_as_runtime Rows
open List (flatMap_cons forall_mem_append forall_mem_cons map_append map_cons mem_cons
  mem_singleton)

/-! ## Walks -/

mutual

/-- What a walk meets, in order. `Node` is an instruction on an id that a node of
the arena gives, with the label that is bound to it. -/
inductive Work where
  | Done
  | Node (id : Nat) (inst : Instruction) (label : Option String) (rest : Work)
  | Fresh (inst : Instruction) (rest : Work)
  | Enter (lambda_id : Nat) (framed first : Bool) (rest : Work)
  | Visit (m : MatchNode) (arms : Arms) (rest : Work)

/-- The arms of a match. Patterns, guards and bodies are walks of their own. -/
inductive Arms where
  | Nil
  | Cons (arm : ArmNode) (pattern guard body : Work) (rest : Arms)

end

def Arms.toList : Arms → List (Arm Work)
  | .Nil => []
  | .Cons arm pattern guard body rest => ⟨arm, pattern, guard, body⟩ :: rest.toList

def Arm.map {α β : Type} (f : α → β) (arm : Arm α) : Arm β :=
  ⟨arm.toArmNode, f arm.pattern, f arm.guard, f arm.body⟩

mutual

/-- The commands of a walk. -/
def script : Work → List Command
  | .Done => []
  | .Node id inst label rest => .Emit id inst :: (label.toList.map (.InsertLabel · id) ++ script rest)
  | .Fresh inst rest => .Fresh inst :: script rest
  | .Enter lambda_id framed first rest => .Enter lambda_id framed first :: script rest
  | .Visit m arms rest => visit_match m (armScripts arms) ++ script rest

def armScripts : Arms → List (Arm (List Command))
  | .Nil => []
  | .Cons arm pattern guard body rest =>
    ⟨arm, script pattern, script guard, script body⟩ :: armScripts rest

end

/-- What a walk emits on: a node, or the rows of a match. -/
inductive Item where
  | Node (id : Nat)
  | Match (m : MatchNode) (arms : List ArmNode)

mutual

/-- The nodes and matches that a walk visits. -/
def items : Work → List Item
  | .Done => []
  | .Node id _ _ rest => .Node id :: items rest
  | .Fresh _ rest => items rest
  | .Enter _ _ _ rest => items rest
  | .Visit m arms rest =>
    .Match m (arms.toList.map (·.toArmNode)) :: (parts m (armItems arms)).flatten ++ items rest

def armItems : Arms → List (Arm (List Item))
  | .Nil => []
  | .Cons arm pattern guard body rest =>
    ⟨arm, items pattern, items guard, items body⟩ :: armItems rest

end

def Item.strips : Item → List Strip
  | .Node _ => []
  | .Match m arms => emit_walker.strips m arms

def Item.node? : Item → Option Nat
  | .Node id => some id
  | .Match _ _ => none

/-- The rows that the matches of a walk reserve. -/
def reserved (work : Work) : List Strip := (items work).flatMap Item.strips

/-- The ids that the nodes of a walk give. -/
def nodes (work : Work) : List Nat := (items work).filterMap Item.node?

/-! ## The ids of a walk -/

theorem armScripts_eq (arms : Arms) : armScripts arms = arms.toList.map (Arm.map script) := by
  match arms with
  | .Nil => rfl
  | .Cons arm pattern guard body rest =>
    rw [armScripts, Arms.toList, armScripts_eq rest]
    rfl

theorem armItems_eq (arms : Arms) : armItems arms = arms.toList.map (Arm.map items) := by
  match arms with
  | .Nil => rfl
  | .Cons arm pattern guard body rest =>
    rw [armItems, Arms.toList, armItems_eq rest]
    rfl

section

variable {α β : Type} (f : α → β) (arms : List (Arm α))

theorem intParts_map : intParts (arms.map (Arm.map f)) = (intParts arms).map f := by
  induction arms with
  | nil => rfl
  | cons arm rest ih =>
    simp only [map_cons, intParts, Arm.map]
    cases arm.arm_meta with
    | none => exact ih
    | some arm_meta =>
      simp only [map_append, ih, intBody]
      congr 2
      · split <;> rfl
      · split <;> rfl

theorem enumParts_map : enumParts (arms.map (Arm.map f)) = (enumParts arms).map f := by
  induction arms with
  | nil => rfl
  | cons arm rest ih =>
    simp only [map_cons, enumParts, Arm.map]
    cases arm.arm_meta with
    | none => rfl
    | some arm_meta =>
      simp only [map_append, ih, enumBody]
      congr 2
      · congr 1
        · split <;> rfl
        · split <;> rfl
      · split <;> rfl

theorem jumpTableParts_map :
    jumpTableParts (arms.map (Arm.map f)) = (jumpTableParts arms).map f := by
  induction arms with
  | nil => rfl
  | cons arm rest ih =>
    simp only [map_cons, jumpTableParts, Arm.map]
    cases arm.arm_meta with
    | none => rfl
    | some arm_meta =>
      simp only [map_append, ih, jumpTableBody]
      congr 1
      split
      · rfl
      · split <;> rfl
      · rfl

/-- Which parts are walked does not depend on what they are. -/
theorem parts_map (m : MatchNode) (arms : List (Arm α)) :
    parts m (arms.map (Arm.map f)) = (parts m arms).map f := by
  unfold parts
  simp only [intParts_map, enumParts_map, jumpTableParts_map, List.isEmpty_map]
  repeat' split
  all_goals rfl

end

variable (m : MatchNode)

/-- Every part that is walked is the pattern, the guard or the body of an arm. -/
theorem parts_forall {α : Type} {P : α → Prop} {arms : List (Arm α)}
    (h : ∀ arm ∈ arms, P arm.pattern ∧ P arm.guard ∧ P arm.body) : ∀ w ∈ parts m arms, P w := by
  -- The arms come from arms over the subtype, and so do their parts.
  have hlift : ∃ l : List (Arm (Subtype P)), l.map (Arm.map Subtype.val) = arms := by
    induction arms with
    | nil => exact ⟨[], rfl⟩
    | cons arm rest ih =>
      obtain ⟨l, hl⟩ := ih fun a ha => h a (.tail _ ha)
      obtain ⟨hp, hg, hb⟩ := h arm (.head _)
      exact ⟨⟨arm.toArmNode, ⟨_, hp⟩, ⟨_, hg⟩, ⟨_, hb⟩⟩ :: l, by rw [map_cons, hl]; rfl⟩
  obtain ⟨l, rfl⟩ := hlift
  intro w hw
  rw [parts_map, List.mem_map] at hw
  obtain ⟨w', -, rfl⟩ := hw
  exact w'.2

/-- The ids of an item, as the source computes them. -/
def Item.ids : Item → List Nat
  | .Node id => [id]
  | .Match m arms => stripIds (emit_walker.strips m arms)

mutual

/-- The commands of a walk emit on the ids of its items. -/
theorem script_ids (work : Work) : (ownIds (script work)).Perm ((items work).flatMap Item.ids) := by
  match work with
  | .Done => exact List.Perm.refl _
  | .Node id inst label rest =>
    have hlabel : ownIds (label.toList.map (.InsertLabel · id)) = [] := by cases label <;> rfl
    simp only [script, items, ownIds_emit, ownIds_append, hlabel, List.nil_append,
      flatMap_cons, Item.ids, List.singleton_append]
    exact (script_ids rest).cons id
  | .Fresh inst rest => exact script_ids rest
  | .Enter lambda_id framed first rest => exact script_ids rest
  | .Visit m arms rest =>
    have hvisit := visit_match_ids m (armScripts arms)
    have hparts : ((parts m (armScripts arms)).flatMap ownIds).Perm
        ((parts m (armItems arms)).flatten.flatMap Item.ids) := by
      rw [armScripts_eq, armItems_eq, parts_map, parts_map, List.flatMap_map, List.flatten_eq_flatMap,
        List.flatMap_assoc, List.flatMap_map]
      exact List.Perm.flatMap_left _ (parts_forall m (arm_ids arms))
    have hnodes : (armScripts arms).map (·.toArmNode) = arms.toList.map (·.toArmNode) := by
      rw [armScripts_eq, List.map_map]
      rfl
    rw [hnodes] at hvisit
    simp only [script, items, ownIds_append, List.flatMap_append, flatMap_cons, Item.ids]
    exact (hvisit.trans (hparts.append_left _)).append (script_ids rest)

theorem arm_ids (arms : Arms) : ∀ arm ∈ arms.toList,
    (ownIds (script arm.pattern)).Perm ((items arm.pattern).flatMap Item.ids) ∧
    (ownIds (script arm.guard)).Perm ((items arm.guard).flatMap Item.ids) ∧
    (ownIds (script arm.body)).Perm ((items arm.body).flatMap Item.ids) := by
  match arms with
  | .Nil => intro arm h; cases h
  | .Cons arm pattern guard body rest =>
    intro a ha
    rcases mem_cons.mp ha with rfl | ha
    · exact ⟨script_ids pattern, script_ids guard, script_ids body⟩
    · exact arm_ids rest a ha

end

theorem script_ids_split (work : Work) :
    (ownIds (script work)).Perm (stripIds (reserved work) ++ nodes work) := by
  refine (script_ids work).trans ?_
  unfold reserved nodes
  induction items work with
  | nil => exact List.Perm.refl _
  | cons item rest ih =>
    cases item with
    | Node id =>
      simp only [flatMap_cons, Item.ids, Item.strips, List.nil_append, List.singleton_append,
        Item.node?]
      exact (ih.cons id).trans List.perm_middle.symm
    | Match m arms =>
      simp only [flatMap_cons, Item.ids, Item.strips, stripIds_append, List.append_assoc]
      exact ih.append_left _

/-! ## The rows are rows of ten -/

section

variable (m : MatchNode) (idx : Nat)

theorem altStrips_fit (a : Nat) (alts : List Int64) : ∀ s ∈ altStrips m idx a alts, s.Fits 10 := by
  induction alts generalizing a with
  | nil => intro s h; cases h
  | cons pv rest ih =>
    intro s h
    rcases mem_cons.mp h with rfl | h
    · refine ⟨?_, ?_⟩
      · intro c hc
        simp only [mem_cons, List.not_mem_nil, or_false] at hc
        omega
      · simp
    · exact ih (a + 1) s h

theorem checkStrips_fit (alts : List Int64) : ∀ s ∈ checkStrips m idx alts, s.Fits 10 := by
  match alts with
  | [] => intro s h; cases h
  | [pv] =>
    intro s h
    cases mem_singleton.mp h
    exact ⟨by simp, by simp⟩
  | pv :: pv' :: rest =>
    intro s h
    rcases List.mem_append.mp h with h | h
    · exact altStrips_fit m idx 0 _ s h
    · cases mem_singleton.mp h
      exact ⟨by simp, by simp⟩

theorem bodyStrips_fit (row literal_col var_col : Nat) (hlit : literal_col < 10)
    (hvar : var_col < 10) (kind : Option ArmKind) :
    ∀ s ∈ bodyStrips row literal_col var_col kind, s.Fits 10 := by
  intro s h
  unfold bodyStrips at h
  split at h
  · cases mem_singleton.mp h
    exact ⟨by simpa using hlit, by simp⟩
  · split at h
    · cases mem_singleton.mp h
      exact ⟨by simpa using hvar, by simp⟩
    · cases h
  · cases h

theorem fits_of_cols {ss : List Strip} (h : ∀ s ∈ ss, (∀ c ∈ s.cols, c < 10) ∧ s.cols.Nodup) :
    ∀ s ∈ ss, s.Fits 10 := fun s hs => ⟨(h s hs).1, (h s hs).2⟩

end

theorem guardStrips_fit (idx : Nat) (arm_meta : MatchArmMeta) :
    ∀ s ∈ guardStrips m idx arm_meta, s.Fits 10 := by
  apply fits_of_cols
  unfold guardStrips
  split <;> simp

variable (registered : Bool)

theorem cascadeEndStrips_fit : ∀ s ∈ cascadeEndStrips m registered, s.Fits 10 := by
  apply fits_of_cols
  cases registered <;> simp [cascadeEndStrips]

theorem intStrips_fit (idx : Nat) (arms : List ArmNode) :
    ∀ s ∈ intStrips m registered idx arms, s.Fits 10 := by
  induction arms generalizing registered idx with
  | nil => exact cascadeEndStrips_fit m registered
  | cons arm rest ih =>
    unfold intStrips
    split
    · exact ih registered (idx + 1)
    · rename_i arm_meta _
      split
      · exact forall_mem_cons.mpr ⟨⟨by simp, by simp⟩, ih true (idx + 1)⟩
      · simp only [intArmStrips, forall_mem_append, List.forall_mem_singleton]
        exact ⟨⟨⟨⟨⟨by simp, by simp⟩, checkStrips_fit m idx _⟩, guardStrips_fit m idx arm_meta⟩,
          ⟨by simp, by simp⟩⟩, ih registered (idx + 1)⟩

theorem enumStrips_fit (layout : EnumLayout) (registered : Bool) (idx : Nat)
    (arms : List ArmNode) : ∀ s ∈ enumStrips m layout registered idx arms, s.Fits 10 := by
  induction arms generalizing registered idx with
  | nil => exact cascadeEndStrips_fit m registered
  | cons arm rest ih =>
    have hbody := bodyStrips_fit (10 * m.id + idx) 4 5 (by omega) (by omega) arm.kind
    unfold enumStrips
    split
    · intro s h; cases h
    · rename_i arm_meta _
      split
      · rw [forall_mem_append, forall_mem_cons]
        exact ⟨⟨⟨by simp, by simp⟩, hbody⟩, ih true (idx + 1)⟩
      · have hpayload : ∀ s ∈ payloadStrips m idx layout arm_meta, s.Fits 10 := by
          apply fits_of_cols
          unfold payloadStrips
          repeat' split
          all_goals simp
        simp only [enumArmStrips, forall_mem_append, List.forall_mem_singleton]
        exact ⟨⟨⟨⟨⟨⟨⟨by simp, by simp⟩, checkStrips_fit m idx _⟩, hpayload⟩,
          guardStrips_fit m idx arm_meta⟩, hbody⟩, ⟨by simp, by simp⟩⟩, ih registered (idx + 1)⟩

theorem jumpTableStrips_fit (idx : Nat) (arms : List ArmNode) :
    ∀ s ∈ jumpTableStrips m registered idx arms, s.Fits 10 := by
  induction arms generalizing registered idx with
  | nil =>
    apply fits_of_cols
    cases registered <;> simp [jumpTableStrips, jumpTableEndStrips]
  | cons arm rest ih =>
    unfold jumpTableStrips
    split
    · intro s h; cases h
    · split
      · exact ih true (idx + 1)
      · rw [forall_mem_append, forall_mem_cons, forall_mem_cons]
        exact ⟨⟨⟨by simp, by simp⟩, bodyStrips_fit _ 4 3 (by omega) (by omega) arm.kind⟩,
          ⟨by simp, by simp⟩, ih registered (idx + 1)⟩

theorem strips_fit (arms : List ArmNode) : ∀ s ∈ strips m arms, s.Fits 10 := by
  unfold strips
  split
  · split
    · intro s h; cases h
    · exact intStrips_fit m false 0 arms
  · split
    · split
      · intro s h; cases h
      · split
        · refine forall_mem_append.mpr ⟨?_, jumpTableStrips_fit m false 0 arms⟩
          apply fits_of_cols
          unfold jumpTableHeadStrips
          repeat' split
          all_goals simp
        · refine forall_mem_append.mpr ⟨?_, enumStrips_fit m _ false 0 arms⟩
          apply fits_of_cols
          split <;> simp
    · intro s h; cases h

theorem reserved_fit (work : Work) : ∀ s ∈ reserved work, s.Fits 10 := by
  intro s hs
  obtain ⟨item, -, hs⟩ := List.mem_flatMap.mp hs
  cases item with
  | Node id => cases hs
  | Match m arms => exact strips_fit m arms s hs

end paideia_as_elaborator.emit_walker
