-- The ids that the match emitters compute, in rows of ten: a match reserves rows
-- by its id, its arms and their alternatives.
import PaideiaAs.Elaborator.EmitMatch
import PaideiaAs.Lib.Rows

namespace paideia_as_elaborator.emit_walker

open paideia_as_runtime Rows
open List (append_nil count_append flatMap_append map_cons map_nil nil_append)

/-! ## The rows of a match -/

section

variable (m : MatchNode) (idx : Nat)

/-- Alternative `a` of an or-pattern takes two of the ten ids of a row. -/
def altStrips : Nat → List Int64 → List Strip
  | _, [] => []
  | a, _ :: rest =>
    ⟨100 * m.id + 10 * idx + a / 5, [2 * (a % 5), 2 * (a % 5) + 1]⟩ :: altStrips (a + 1) rest

def checkStrips : List Int64 → List Strip
  | [] => []
  | [_] => [⟨10 * m.id + idx, [0, 1]⟩]
  | alts => altStrips m idx 0 alts ++ [⟨100 * m.id + 10 * idx + 9, [8]⟩]

def guardStrips (arm_meta : MatchArmMeta) : List Strip :=
  if arm_meta.guard then [⟨10 * m.id + idx, [6, 7]⟩] else []

def cascadeEndStrips (default_arm_registered : Bool) : List Strip :=
  (if default_arm_registered then [] else [⟨10 * m.id + 99, [7]⟩]) ++ [⟨10 * m.id + 99, [9]⟩]

def intArmStrips (arm_meta : MatchArmMeta) : List Strip :=
  [⟨10 * m.id + idx, [8]⟩] ++ checkStrips m idx (int_alts arm_meta) ++
  guardStrips m idx arm_meta ++ [⟨10 * m.id + idx, [3]⟩]

/-- A literal or a variable as the body of an enum arm. -/
def bodyStrips (row literal_col var_col : Nat) : Option ArmKind → List Strip
  | some (.Literal (some _)) => [⟨row, [literal_col]⟩]
  | some (.Var (some var_reg)) => if var_reg ≠ RAX then [⟨row, [var_col]⟩] else []
  | _ => []

def payloadStrips (layout : EnumLayout) (arm_meta : MatchArmMeta) : List Strip :=
  if arm_meta.pattern_binding then []
  else if arm_meta.payload_binder.isSome ∧ layout.payload_size > 0 ∧ layout.size > 16 then
    [⟨10 * m.id + idx, [2]⟩]
  else []

def enumArmStrips (layout : EnumLayout) (arm_meta : MatchArmMeta) (kind : Option ArmKind) :
    List Strip :=
  [⟨10 * m.id + idx, [8]⟩] ++ checkStrips m idx (variant_alts arm_meta) ++
  payloadStrips m idx layout arm_meta ++ guardStrips m idx arm_meta ++
  bodyStrips (10 * m.id + idx) 4 5 kind ++ [⟨10 * m.id + idx, [3]⟩]

def jumpTableHeadStrips (layout : EnumLayout) (dispatch_meta : MatchDispatchMeta) : List Strip :=
  (if layout.size > 16 then [⟨100 * m.id, [0]⟩] else []) ++
  (if dispatch_meta.min_arm ≠ 0 then [⟨100 * m.id, [1]⟩] else []) ++ [⟨100 * m.id, [2, 3, 4]⟩]

def jumpTableEndStrips (default_arm_registered : Bool) : List Strip :=
  (if default_arm_registered then [] else [⟨100 * m.id + 99, [8]⟩]) ++ [⟨100 * m.id + 99, [9]⟩]

end

def intStrips (m : MatchNode) : Bool → Nat → List ArmNode → List Strip
  | registered, _, [] => cascadeEndStrips m registered
  | registered, idx, arm :: rest =>
    match arm.arm_meta with
    | none => intStrips m registered (idx + 1) rest
    | some arm_meta =>
      if arm_meta.is_default then ⟨10 * m.id + 99, [6]⟩ :: intStrips m true (idx + 1) rest
      else intArmStrips m idx arm_meta ++ intStrips m registered (idx + 1) rest

def enumStrips (m : MatchNode) (layout : EnumLayout) : Bool → Nat → List ArmNode → List Strip
  | registered, _, [] => cascadeEndStrips m registered
  | registered, idx, arm :: rest =>
    match arm.arm_meta with
    | none => []
    | some arm_meta =>
      if arm_meta.is_default then
        ⟨10 * m.id + 99, [6]⟩ :: bodyStrips (10 * m.id + idx) 4 5 arm.kind ++
        enumStrips m layout true (idx + 1) rest
      else
        enumArmStrips m idx layout arm_meta arm.kind ++
        enumStrips m layout registered (idx + 1) rest

def jumpTableStrips (m : MatchNode) : Bool → Nat → List ArmNode → List Strip
  | registered, _, [] => jumpTableEndStrips m registered
  | registered, idx, arm :: rest =>
    match arm.arm_meta with
    | none => []
    | some arm_meta =>
      if arm_meta.is_default then jumpTableStrips m true (idx + 1) rest
      else
        ⟨100 * m.id + 10 + idx, [0]⟩ :: bodyStrips (100 * m.id + 10 + idx) 4 3 arm.kind ++
        ⟨100 * m.id + 10 + idx, [5]⟩ :: jumpTableStrips m registered (idx + 1) rest

/-- The rows that a match with these arms reserves. -/
def strips (m : MatchNode) (arms : List ArmNode) : List Strip :=
  if m.int_match then
    if m.scrutinee.isNone ∨ arms.isEmpty then [] else intStrips m false 0 arms
  else
    match m.scrutinee, m.layout with
    | some scrutinee, some layout =>
      if arms.isEmpty ∨ !scrutinee.is_var then []
      else
        match m.dispatch.filter (·.is_jump_table) with
        | some dispatch_meta =>
          jumpTableHeadStrips m layout dispatch_meta ++ jumpTableStrips m false 0 arms
        | none =>
          (if layout.size > 16 then [⟨10 * m.id + 90, [0]⟩] else []) ++
          enumStrips m layout false 0 arms
    | _, _ => []

/-! ## The parts of a match that are walked on their own -/

section

variable {α : Type}

def intBody (arm : Arm α) : List α :=
  match arm.kind with
  | some .Action | some (.Var _) | some .App => [arm.body]
  | _ => []

def intParts : List (Arm α) → List α
  | [] => []
  | arm :: rest =>
    match arm.arm_meta with
    | none => intParts rest
    | some arm_meta =>
      (if arm_meta.is_default ∨ !arm_meta.guard then [] else [arm.guard]) ++ intBody arm ++
      intParts rest

def enumBody (arm : Arm α) : List α :=
  match arm.kind with
  | some .Action | some .App => [arm.body]
  | _ => []

def enumParts : List (Arm α) → List α
  | [] => []
  | arm :: rest =>
    match arm.arm_meta with
    | none => []
    | some arm_meta =>
      (if arm_meta.is_default ∨ !arm_meta.pattern_binding then [] else [arm.pattern]) ++
      (if arm_meta.is_default ∨ !arm_meta.guard then [] else [arm.guard]) ++ enumBody arm ++
      enumParts rest

def jumpTableBody (is_default : Bool) (arm : Arm α) : List α :=
  match arm.kind with
  | some .Action => [arm.body]
  | some .App => if is_default then [] else [arm.body]
  | _ => []

def jumpTableParts : List (Arm α) → List α
  | [] => []
  | arm :: rest =>
    match arm.arm_meta with
    | none => []
    | some arm_meta => jumpTableBody arm_meta.is_default arm ++ jumpTableParts rest

def parts (m : MatchNode) (arms : List (Arm α)) : List α :=
  if m.int_match then
    if m.scrutinee.isNone ∨ arms.isEmpty then [] else intParts arms
  else
    match m.scrutinee, m.layout with
    | some scrutinee, some _ =>
      if arms.isEmpty ∨ !scrutinee.is_var then []
      else if (m.dispatch.filter (·.is_jump_table)).isSome then jumpTableParts arms
      else enumParts arms
    | _, _ => []

end

/-! ## The ids are the rows -/

/-- The ids of a list of strips, as the source computes them. -/
def stripIds (ss : List Strip) : List Nat := (cells 10 ss).map u32

@[simp] theorem stripIds_nil : stripIds [] = [] := rfl

@[simp] theorem stripIds_append (ss ts : List Strip) :
    stripIds (ss ++ ts) = stripIds ss ++ stripIds ts := by simp [stripIds]

theorem stripIds_cons (s : Strip) (ss : List Strip) :
    stripIds (s :: ss) = s.cols.map (fun c => u32 (10 * s.row + c)) ++ stripIds ss := by
  simp [stripIds, Strip.cells]

section

variable (m : MatchNode) (idx : Nat) (next : String)

theorem multi_alt_ids (a : Nat) (alts : List Int64) :
    ownIds (multi_alt m idx next a alts) = stripIds (altStrips m idx a alts) := by
  induction alts generalizing a with
  | nil => rfl
  | cons pv rest ih =>
    have hcmp : m.id * 1000 + idx * 100 + a * 2 =
        10 * (100 * m.id + 10 * idx + a / 5) + 2 * (a % 5) := by omega
    simp only [multi_alt, altStrips, ownIds_emit, stripIds_cons, ih, map_cons, map_nil,
      hcmp, Nat.add_assoc, List.cons_append, nil_append]

theorem check_alts_ids (alts : List Int64) :
    ownIds (check_alts m idx next alts) = stripIds (checkStrips m idx alts) := by
  match alts with
  | [] => rfl
  | [pv] =>
    have h0 : m.id * 100 + idx * 10 = 10 * (10 * m.id + idx) + 0 := by omega
    simp only [check_alts, checkStrips, ownIds_emit, ownIds_nil, stripIds_cons, stripIds_nil,
      map_cons, map_nil, append_nil, h0, Nat.add_zero]
  | pv :: pv' :: rest =>
    have h98 : m.id * 1000 + idx * 100 + 98 = 10 * (100 * m.id + 10 * idx + 9) + 8 := by omega
    simp only [check_alts, checkStrips, ownIds_append, multi_alt_ids, stripIds_append, anchor,
      ownIds_emit, ownIds_insertLabel, ownIds_nil, stripIds_cons, stripIds_nil, map_cons,
      map_nil, append_nil, h98]

@[simp] theorem anchor_ids (id : Nat) (label : String) : ownIds (anchor m id label) = [id] := rfl

theorem check_guard_ids (arm_meta : MatchArmMeta) (guard : List Command) :
    (ownIds (check_guard m idx next arm_meta guard)).Perm
      (stripIds (guardStrips m idx arm_meta) ++ if arm_meta.guard then ownIds guard else []) := by
  have h6 : m.id * 100 + idx * 10 + 6 = 10 * (10 * m.id + idx) + 6 := by omega
  have h7 : m.id * 100 + idx * 10 + 7 = 10 * (10 * m.id + idx) + 7 := by omega
  unfold check_guard guardStrips
  split
  · simp only [ownIds_append, ownIds_emit, ownIds_nil, stripIds_cons, stripIds_nil, map_cons,
      map_nil, append_nil, h6, h7]
    exact List.perm_append_comm
  · exact List.Perm.refl _

theorem cascade_end_ids (registered : Bool) :
    ownIds (cascade_end m registered) = stripIds (cascadeEndStrips m registered) := by
  have h7 : m.id * 100 + 997 = 10 * (10 * m.id + 99) + 7 := by omega
  have h9 : m.id * 100 + 999 = 10 * (10 * m.id + 99) + 9 := by omega
  cases registered with
  | false => simp [cascade_end, cascadeEndStrips, stripIds_cons, h7, h9]
  | true => simp [cascade_end, cascadeEndStrips, stripIds_cons, h9]

theorem load_ids (scrutinee : Scrutinee) : ownIds (emit_int_scrutinee_load m scrutinee) = [] := by
  unfold emit_int_scrutinee_load
  split <;> rfl

variable (layout : EnumLayout)

theorem enum_load_ids (scrutinee : Scrutinee) :
    ownIds (emit_scrutinee_load m layout scrutinee) = [] := by
  unfold emit_scrutinee_load
  repeat' split
  all_goals rfl

theorem emit_match_arm_ids (arm : Arm (List Command)) :
    ownIds (emit_match_arm m arm.kind arm.body) = (intBody arm).flatMap ownIds := by
  unfold emit_match_arm intBody
  split <;> simp_all

theorem enum_body_ids (row literal_col var_col literal_id var_id : Nat) (arm : Arm (List Command))
    (hlit : literal_id = u32 (10 * row + literal_col)) (hvar : var_id = u32 (10 * row + var_col)) :
    ownIds (enum_body m literal_id var_id arm.kind arm.body) =
      stripIds (bodyStrips row literal_col var_col arm.kind) ++ (enumBody arm).flatMap ownIds := by
  subst hlit hvar
  unfold enum_body bodyStrips enumBody
  split <;> simp_all [stripIds_cons]
  split <;> simp [stripIds_cons]

theorem bind_payload_ids (arm_meta : MatchArmMeta) (pattern : List Command) :
    ownIds (bind_payload m idx layout arm_meta pattern) =
      stripIds (payloadStrips m idx layout arm_meta) ++
        if arm_meta.pattern_binding then ownIds pattern else [] := by
  have h2 : m.id * 100 + idx * 10 + 2 = 10 * (10 * m.id + idx) + 2 := by omega
  unfold bind_payload payloadStrips
  split
  · rfl
  · split <;> simp [stripIds_cons, h2]

theorem jump_table_head_ids (dispatch_meta : MatchDispatchMeta) :
    ownIds (jump_table_head m layout dispatch_meta) =
      stripIds (jumpTableHeadStrips m layout dispatch_meta) := by
  have h : m.id * 1000 = 10 * (100 * m.id) := by rw [← Nat.mul_assoc, Nat.mul_comm]
  unfold jump_table_head jumpTableHeadStrips
  rw [h]
  repeat' split
  all_goals simp [stripIds_cons]

theorem jump_table_end_ids (registered : Bool) :
    ownIds (jump_table_end m registered) = stripIds (jumpTableEndStrips m registered) := by
  have h9 : m.id * 1000 + 999 = 10 * (100 * m.id + 99) + 9 := by omega
  have h8 : m.id * 1000 + 998 = 10 * (100 * m.id + 99) + 8 := Nat.succ.inj h9
  cases registered with
  | false => simp [jump_table_end, jumpTableEndStrips, stripIds_cons, h8, h9]
  | true => simp [jump_table_end, jumpTableEndStrips, stripIds_cons, h9]

end

/-! ## The ids of whole matches -/

variable (m : MatchNode)

theorem int_arms_ids (registered : Bool) (idx : Nat) (arms : List (Arm (List Command))) :
    (ownIds (int_arms m registered idx arms)).Perm
      (stripIds (intStrips m registered idx (arms.map (·.toArmNode))) ++
        (intParts arms).flatMap ownIds) := by
  induction arms generalizing registered idx with
  | nil => simp [int_arms, intStrips, intParts, cascade_end_ids]
  | cons arm rest ih =>
    rw [List.perm_iff_count]
    intro x
    simp only [int_arms, map_cons, intStrips, intParts]
    cases harm : arm.arm_meta with
    | none => exact (ih registered (idx + 1)).count_eq x
    | some arm_meta =>
      simp only
      by_cases hdef : arm_meta.is_default = true
      · have hrest := (ih true (idx + 1)).count_eq x
        have h6 : m.id * 100 + 996 = 10 * (10 * m.id + 99) + 6 := by omega
        simp only [hdef, if_true, true_or, int_default_arm, ownIds_append, anchor_ids,
          emit_match_arm_ids, count_append, flatMap_append, stripIds_cons, h6,
          map_cons, map_nil, List.flatMap_nil, List.count_nil] at hrest ⊢
        omega
      · have hrest := (ih registered (idx + 1)).count_eq x
        have hguard := (check_guard_ids m idx (next_label m idx rest) arm_meta arm.guard).count_eq x
        have h8 : m.id * 100 + idx * 10 + 8 = 10 * (10 * m.id + idx) + 8 := by omega
        have h3 : m.id * 100 + idx * 10 + 3 = 10 * (10 * m.id + idx) + 3 := by omega
        have hbind : ownIds (bind_outer m arm_meta arm.live) = [] := by
          unfold bind_outer
          split <;> rfl
        have hpart : ((if arm_meta.is_default = true ∨ (!arm_meta.guard) = true then []
            else [arm.guard]).flatMap ownIds) = if arm_meta.guard then ownIds arm.guard else [] := by
          cases arm_meta.guard <;> simp [hdef]
        rw [if_neg hdef, if_neg hdef]
        simp only [int_arm, intArmStrips, ownIds_append, anchor_ids, check_alts_ids,
          emit_match_arm_ids, hbind, hpart, ownIds_emit, ownIds_nil, stripIds_append, stripIds_cons,
          stripIds_nil, count_append, flatMap_append, map_cons, map_nil,
          append_nil, h3, h8] at hrest hguard ⊢
        omega

theorem enum_arms_ids (layout : EnumLayout) (registered : Bool) (idx : Nat)
    (arms : List (Arm (List Command))) :
    (ownIds (enum_arms m layout registered idx arms)).Perm
      (stripIds (enumStrips m layout registered idx (arms.map (·.toArmNode))) ++
        (enumParts arms).flatMap ownIds) := by
  induction arms generalizing registered idx with
  | nil => simp [enum_arms, enumStrips, enumParts, cascade_end_ids]
  | cons arm rest ih =>
    rw [List.perm_iff_count]
    intro x
    simp only [enum_arms, map_cons, enumStrips, enumParts]
    cases harm : arm.arm_meta with
    | none => simp
    | some arm_meta =>
      have h4 : m.id * 100 + idx * 10 + 4 = 10 * (10 * m.id + idx) + 4 := by omega
      have h5 : m.id * 100 + idx * 10 + 5 = 10 * (10 * m.id + idx) + 5 := congrArg Nat.succ h4
      have hbody := enum_body_ids m (10 * m.id + idx) 4 5 _ _ arm (congrArg u32 h4)
        (congrArg u32 h5)
      simp only
      by_cases hdef : arm_meta.is_default = true
      · have hrest := (ih true (idx + 1)).count_eq x
        have h6 : m.id * 100 + 996 = 10 * (10 * m.id + 99) + 6 := by omega
        simp only [hdef, if_true, true_or, enum_default_arm, ownIds_append, anchor_ids, hbody,
          stripIds_append, count_append, flatMap_append, stripIds_cons, h6,
          map_cons, map_nil, List.flatMap_nil, List.count_nil] at hrest ⊢
        omega
      · have hrest := (ih registered (idx + 1)).count_eq x
        have hguard := (check_guard_ids m idx (next_label m idx rest) arm_meta arm.guard).count_eq x
        have h8 : m.id * 100 + idx * 10 + 8 = 10 * (10 * m.id + idx) + 8 := by omega
        have h3 : m.id * 100 + idx * 10 + 3 = 10 * (10 * m.id + idx) + 3 := Nat.succ.inj h4
        have hpart (b : Bool) (cmds : List Command) :
            ((if arm_meta.is_default = true ∨ (!b) = true then [] else [cmds]).flatMap ownIds) =
              if b then ownIds cmds else [] := by
          cases b <;> simp [hdef]
        rw [if_neg hdef, if_neg hdef]
        simp only [enum_arm, enumArmStrips, ownIds_append, anchor_ids, check_alts_ids, hbody,
          bind_payload_ids, hpart, ownIds_emit, ownIds_nil, stripIds_append, stripIds_cons,
          stripIds_nil, count_append, flatMap_append, map_cons, map_nil,
          append_nil, h3, h8] at hrest hguard ⊢
        omega

theorem jump_table_arms_ids (registered : Bool) (idx : Nat) (arms : List (Arm (List Command))) :
    (ownIds (jump_table_arms m registered idx arms)).Perm
      (stripIds (jumpTableStrips m registered idx (arms.map (·.toArmNode))) ++
        (jumpTableParts arms).flatMap ownIds) := by
  induction arms generalizing registered idx with
  | nil => simp [jump_table_arms, jumpTableStrips, jumpTableParts, jump_table_end_ids]
  | cons arm rest ih =>
    rw [List.perm_iff_count]
    intro x
    simp only [jump_table_arms, map_cons, jumpTableStrips, jumpTableParts]
    cases harm : arm.arm_meta with
    | none => simp
    | some arm_meta =>
      simp only
      by_cases hdef : arm_meta.is_default = true
      · have hrest := (ih true (idx + 1)).count_eq x
        have hbody : ownIds (jump_table_default_arm m arm) =
            (jumpTableBody true arm).flatMap ownIds := by
          unfold jump_table_default_arm jumpTableBody
          rw [ownIds_registerLabel]
          rcases arm.kind with _ | _ | _ | _ | _ | _ <;> simp
        simp only [hdef, if_true, ownIds_append, hbody, count_append, flatMap_append] at hrest ⊢
        omega
      · have hrest := (ih registered (idx + 1)).count_eq x
        have h0 : m.id * 1000 + 100 + idx * 10 = 10 * (100 * m.id + 10 + idx) := by omega
        have hbody := enum_body_ids m (100 * m.id + 10 + idx) 4 3 _ _ arm rfl rfl
        have hpart : jumpTableBody false arm = enumBody arm := by
          unfold jumpTableBody enumBody
          split <;> simp_all
        rw [if_neg hdef, if_neg hdef, Bool.eq_false_iff.mpr hdef, hpart]
        simp only [jump_table_arm, ownIds_append, anchor_ids, hbody, ownIds_emit, ownIds_nil,
          stripIds_append, stripIds_cons, count_append, flatMap_append, map_cons,
          map_nil, h0, Nat.add_zero] at hrest ⊢
        omega

theorem visit_match_ids (arms : List (Arm (List Command))) : (ownIds (visit_match m arms)).Perm
      (stripIds (strips m (arms.map (·.toArmNode))) ++ (parts m arms).flatMap ownIds) := by
  unfold visit_match strips parts
  split
  · unfold visit_int_match
    cases m.scrutinee with
    | none => simp
    | some scrutinee =>
      cases arms with
      | nil => simp
      | cons arm rest =>
        simpa [load_ids] using int_arms_ids m false 0 (arm :: rest)
  · unfold visit_match_jump_table visit_enum_match
    cases m.scrutinee with
    | none => cases m.dispatch.filter (·.is_jump_table) <;> simp
    | some scrutinee =>
      cases m.layout with
      | none => cases m.dispatch.filter (·.is_jump_table) <;> simp
      | some layout =>
        cases m.dispatch.filter (·.is_jump_table) with
        | none =>
          have h900 : m.id * 100 + 900 = 10 * (10 * m.id + 90) + 0 := by omega
          have hload : ownIds (if layout.size > 16 then
              [Command.Emit (u32 (m.id * 100 + 900)) (load_rdi m RAX 0)] else []) =
              stripIds (if layout.size > 16 then [⟨10 * m.id + 90, [0]⟩] else []) := by
            split <;> simp [stripIds_cons, h900]
          by_cases hout : (arms.isEmpty = true ∨ (!scrutinee.is_var) = true)
          · simp [List.isEmpty_iff] at hout ⊢
            simp [hout]
          · have hout' : ¬((arms.map (·.toArmNode)).isEmpty = true ∨
                (!scrutinee.is_var) = true) := by simpa using hout
            simp only [hout, hout', if_false, ownIds_append, enum_load_ids, hload, nil_append,
              stripIds_append, Option.isSome_none, Bool.false_eq_true, List.append_assoc]
            exact (enum_arms_ids m layout false 0 arms).append_left _
        | some dispatch_meta =>
          by_cases hout : (arms.isEmpty = true ∨ (!scrutinee.is_var) = true)
          · simp [List.isEmpty_iff] at hout ⊢
            simp [hout]
          · have hout' : ¬((arms.map (·.toArmNode)).isEmpty = true ∨
                (!scrutinee.is_var) = true) := by simpa using hout
            simp only [hout, hout', if_false, ownIds_append, enum_load_ids, jump_table_head_ids,
              nil_append, stripIds_append, Option.isSome_some, if_true, List.append_assoc]
            exact (jump_table_arms_ids m false 0 arms).append_left _

end paideia_as_elaborator.emit_walker
