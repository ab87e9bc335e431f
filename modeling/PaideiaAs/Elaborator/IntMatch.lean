-- The integer match as it runs: what the cascade of compares, guards and bodies
-- leaves in `rax`, against the first arm that matches.
import PaideiaAs.Elaborator.Machine
import PaideiaAs.Elaborator.MatchInt

namespace paideia_as_elaborator.emit_walker

open paideia_as_runtime Flow
open Outcome (bind_eq_ok)
open List (append_assoc cons_append map_cons mem_append mem_cons mem_singleton)
open Bool (false_eq_true)
open Mark (label label_inj)

/-! ## Integer matches -/

/-- An arm of the source: its pattern, whether it has a guard, the kind of its
body, the registers that hold a binding when it is reached, the lowered guard and
body, and the values that these stand for. -/
structure SourceArm where
  pattern : Pat
  guarded : Bool
  kind : Option ArmKind
  live : List RegId
  guard : List Command
  body : List Command
  guard_value : (RegId → Int64) → Int64
  body_value : (RegId → Int64) → Int64

/-- A match that `classify_match_integer` accepts, with the rows that it records. -/
structure IntMatch where
  node : MatchNode
  text : ScrutineeText
  arms : List SourceArm
  rows : List (Option MatchArmMeta)
  accepted :
    classify_match_integer text (arms.map fun a => (a.pattern, a.guarded)) = .ok (some rows)

abbrev RowedArm := Option MatchArmMeta × SourceArm

def RowedArm.toArm (v : RowedArm) : Arm (List Command) :=
  ⟨⟨v.1, v.2.kind, v.2.live⟩, [], v.2.guard, v.2.body⟩

def IntMatch.rowed (M : IntMatch) : List RowedArm := M.rows.zip M.arms

def IntMatch.code (M : IntMatch) : List Command := visit_int_match M.node (M.rowed.map RowedArm.toArm)

/-! ## The first match -/

/-- The register of `x @ ..`. -/
def binders (row : MatchArmMeta) (a : SourceArm) : List RegId :=
  if row.outer_binder.isSome then [bound_reg a.live] else []

/-- The bindings of an arm when it looks at `x`. -/
def bindAt (row : MatchArmMeta) (a : SourceArm) (f : RegId → Int64) (x : Int64) : RegId → Int64 :=
  if row.outer_binder.isSome then Function.update f (bound_reg a.live) x else f

def guard_passes (row : MatchArmMeta) (a : SourceArm) (f : RegId → Int64) (x : Int64) : Bool :=
  !row.guard || a.guard_value (bindAt row a f x) != 0

/-- The pattern contains `x` and the guard is not 0. -/
def arm_matches (row : MatchArmMeta) (a : SourceArm) (f : RegId → Int64) (x : Int64) : Bool :=
  (row.is_default || (int_alts row).contains x) && guard_passes row a f x

/-- The body of the first arm whose pattern contains `x` and whose guard is not 0.
An arm without a row has no pattern values. -/
def first_match (f : RegId → Int64) (x : Int64) : List RowedArm → Option Int64
  | [] => none
  | (none, _) :: rest => first_match f x rest
  | (some row, a) :: rest =>
    if arm_matches row a f x then some (a.body_value (bindAt row a f x)) else first_match f x rest

/-! ## What is asked of guards and bodies -/

section

variable {σ : Type} (w : World σ) (P : List Command)

/-- The commands leave the value in `rax` and keep the registers, wherever they
stand in the program. -/
def Lowering (cmds : List Command) (value : (RegId → Int64) → Int64) (keep : List RegId) : Prop :=
  ∀ rest s, cmds ++ rest <:+ P → ∃ s', w.machine.Runs P (cmds ++ rest, s) (rest, s') ∧
    s'.regs RAX = value s.regs ∧ ∀ r ∈ keep, r ≠ RAX → s'.regs r = s.regs r

/-- A value that depends on some registers only. -/
def Reads (value : (RegId → Int64) → Int64) (regs : List RegId) : Prop :=
  ∀ f g, (∀ r ∈ regs, f r = g r) → value f = value g

def BodyLowered (a : SourceArm) (keep : List RegId) : Prop :=
  match a.kind with
  | some (.Literal (some value)) => ∀ f, a.body_value f = value
  | some .Action | some (.Var _) | some .App => Lowering w P a.body a.body_value keep
  | _ => False

/-- `scope` are the registers of the bindings around the match. -/
structure ArmLowered (m : MatchNode) (scope : List RegId) (row : MatchArmMeta) (a : SourceArm) :
    Prop where
  guard : row.guard = true → Lowering w P a.guard a.guard_value (scope ++ binders row a)
  body : BodyLowered w P a (scope ++ binders row a)
  reads_guard : Reads a.guard_value (scope ++ binders row a)
  reads_body : Reads a.body_value (scope ++ binders row a)
  foreign : ∀ k : Mark, k.label m ∉ w.machine.labels (a.guard ++ a.body)
  live : ∀ r ∈ scope, r ∈ a.live

def Lowered (m : MatchNode) (scope : List RegId) (vs : List RowedArm) : Prop :=
  ∀ row a, (some row, a) ∈ vs → ArmLowered w P m scope row a

end

/-! ## The arms that the cascade comes to -/

/-- The first of the arms has a row. -/
def Recorded (vs : List RowedArm) : Prop := (vs.head?.bind (·.1)).isSome = true

instance (vs : List RowedArm) : Decidable (Recorded vs) := inferInstanceAs (Decidable (_ = true))

/-- The default arm is the last one with a row, and its guard is not 0. -/
def LastDefault (f : RegId → Int64) (x : Int64) (row : MatchArmMeta) (a : SourceArm)
    (rest : List RowedArm) : Prop :=
  guard_passes row a f x = true ∧ ∀ v ∈ rest, v.1 = none

/-- Only the default arm matches `x`. -/
def OnlyDefault (f : RegId → Int64) (x : Int64) : List RowedArm → Prop
  | [] => False
  | (none, _) :: rest => OnlyDefault f x rest
  | (some row, a) :: rest =>
    if row.is_default then LastDefault f x row a rest
    else arm_matches row a f x = false ∧ OnlyDefault f x rest

/-- The arms that the cascade comes to with `x` in `rax` are in order: a default arm
is the last one and its guard is not 0, every other arm has a pattern value, a binder
that a guard could overwrite has a register of its own, and where an arm is left for
one without a row, only the default arm matches. A guard that is 0 leaves 0 in `rax`. -/
def InOrder (f : RegId → Int64) : Int64 → List RowedArm → Prop
  | _, [] => False
  | x, (none, _) :: rest => InOrder f x rest
  | x, (some row, a) :: rest =>
    if row.is_default then LastDefault f x row a rest
    else
      int_alts row ≠ [] ∧
      if (int_alts row).contains x then
        if guard_passes row a f x then
          row.guard = true → row.outer_binder.isSome = true → bound_reg a.live ≠ RAX
        else if Recorded rest then InOrder f 0 rest else OnlyDefault f 0 rest
      else if Recorded rest then InOrder f x rest else OnlyDefault f x rest

/-- What the cascade leaves in `rax`. -/
def cascade (f : RegId → Int64) : Int64 → List RowedArm → Option Int64
  | _, [] => none
  | x, (none, _) :: rest => cascade f x rest
  | x, (some row, a) :: rest =>
    if row.is_default then some (a.body_value (bindAt row a f x))
    else if (int_alts row).contains x then
      if guard_passes row a f x then some (a.body_value (bindAt row a f x))
      else if Recorded rest then cascade f 0 rest else first_match f 0 rest
    else if Recorded rest then cascade f x rest else first_match f x rest

/-- At the first arm whose pattern contains `v`, the guard is not 0, or else 0 has
the match of `v` among the arms behind it. -/
def ZeroAlike (f : RegId → Int64) (v : Int64) : List RowedArm → Prop
  | [] => True
  | (none, _) :: rest => ZeroAlike f v rest
  | (some row, a) :: rest =>
    if row.is_default then True
    else if (int_alts row).contains v then
      guard_passes row a f v = false →
        ∀ u, first_match f v rest = some u → first_match f 0 rest = some u
    else if Recorded rest then ZeroAlike f v rest else True

section

variable {f : RegId → Int64}

/-- On the same value, the cascade is the first match. -/
theorem cascade_zero {vs : List RowedArm} (h : InOrder f 0 vs) :
    cascade f 0 vs = first_match f 0 vs := by
  induction vs with
  | nil => cases h
  | cons v rest ih =>
    rcases v with ⟨_ | row, a⟩
    · exact ih h
    · simp only [InOrder, cascade, first_match, arm_matches, LastDefault] at h ⊢
      split_ifs at h ⊢ with hd hx hg hm hm
      all_goals simp_all

/-- The cascade finds the first match of `v` when 0 does as well as `v`. -/
theorem cascade_eq_iff {v : Int64} {vs : List RowedArm} (h : InOrder f v vs) :
    (∀ u, first_match f v vs = some u → cascade f v vs = some u) ↔ ZeroAlike f v vs := by
  induction vs with
  | nil => cases h
  | cons a rest ih =>
    rcases a with ⟨_ | row, a⟩
    · exact ih h
    · simp only [InOrder, cascade, first_match, arm_matches, ZeroAlike, LastDefault] at h ⊢
      by_cases hd : row.is_default = true
      · simp_all
      · by_cases hx : (int_alts row).contains v = true
        · by_cases hg : guard_passes row a f v = true
          · simp_all
          · simp only [hd, hx, hg, if_true, if_false, Bool.or_true, Bool.and_false,
              false_eq_true, true_implies] at h ⊢
            -- from here on the cascade looks at 0
            have hzero : (if Recorded rest then cascade f 0 rest else first_match f 0 rest) =
                first_match f 0 rest := by
              split_ifs with hr
              · rw [if_pos hr] at h
                exact cascade_zero h.2
              · rfl
            rw [hzero]
        · simp only [hd, hx, if_false, Bool.or_self, Bool.false_and, false_eq_true] at h ⊢
          by_cases hr : Recorded rest
          · rw [if_pos hr] at h
            simp only [if_pos hr]
            exact ih h.2
          · simp [hr]

end

/-! ## The code of an arm -/

section

variable (m : MatchNode) (idx : Nat)

/-- An arm behind its anchor. -/
def int_body (next : String) (row : MatchArmMeta) (arm : Arm (List Command)) : List Command :=
  check_alts m idx next (int_alts row) ++
  bind_outer m row arm.live ++
  check_guard m idx next row arm.guard ++
  emit_match_arm m arm.kind arm.body ++
  [.Emit (u32 (m.id * 100 + idx * 10 + 3)) (jmp m (end_label m))]

/-- The label that the cascade uses for an arm. -/
def armMark (row : MatchArmMeta) : Mark := if row.is_default then .default else .arm idx

/-- The code from an arm on, behind its anchor. -/
def arm_tail (registered : Bool) (row : MatchArmMeta) (a : SourceArm) (rest : List RowedArm) :
    List Command :=
  if row.is_default then
    emit_match_arm m a.kind a.body ++ int_arms m true (idx + 1) (rest.map RowedArm.toArm)
  else
    int_body m idx (next_label m idx (rest.map RowedArm.toArm)) row (RowedArm.toArm (some row, a)) ++
    int_arms m registered (idx + 1) (rest.map RowedArm.toArm)

variable {m idx}

theorem int_arms_recorded (registered : Bool) (row : MatchArmMeta) (a : SourceArm)
    (rest : List RowedArm) :
    ∃ id, int_arms m registered idx (((some row, a) :: rest).map RowedArm.toArm) =
      anchor m id ((armMark idx row).label m) ++ arm_tail m idx registered row a rest := by
  rw [map_cons, int_arms]
  by_cases hd : row.is_default = true
  · refine ⟨u32 (m.id * 100 + 996), ?_⟩
    simp only [RowedArm.toArm, hd, if_true, int_default_arm, armMark, arm_tail, label, append_assoc]
  · refine ⟨u32 (m.id * 100 + idx * 10 + 8), ?_⟩
    simp only [RowedArm.toArm, hd, if_false, int_arm, armMark, arm_tail, label, int_body,
      append_assoc, false_eq_true]

theorem next_label_recorded (row : MatchArmMeta) (a : SourceArm) (rest : List RowedArm) :
    next_label m idx (((some row, a) :: rest).map RowedArm.toArm) = (armMark (idx + 1) row).label m := by
  simp only [next_label, map_cons, List.head?_cons, Option.bind_some, RowedArm.toArm, armMark]
  split_ifs <;> rfl

end

/-! ## The labels of the cascade -/

section

variable {σ : Type} {w : World σ} {P : List Command} {m : MatchNode} {scope : List RegId}

/-- Labels of arms from `idx` on, and of the match as a whole. -/
def Mark.Later (idx : Nat) : Mark → Prop
  | .default | .finish => True
  | .arm j | .body j => idx ≤ j

theorem labels_multi_alt (idx : Nat) (next : String) (a_idx : Nat) (alts : List Int64) :
    w.machine.labels (multi_alt m idx next a_idx alts) = [] := by
  induction alts generalizing a_idx with
  | nil => rfl
  | cons pv rest ih => simpa [multi_alt, World.machine] using ih (a_idx + 1)

variable {l : String} {idx : Nat}

theorem labels_check_alts (idx : Nat) (next : String) (alts : List Int64)
    (h : l ∈ w.machine.labels (check_alts m idx next alts)) : l = body_label m idx := by
  unfold check_alts at h
  split at h
  · simp at h
  · simp [World.machine] at h
  · simpa [labels_multi_alt, labels_anchor] using h

theorem labels_bind_outer (row : MatchArmMeta) (live : List RegId) :
    w.machine.labels (bind_outer m row live) = [] := by
  unfold bind_outer
  split <;> rfl

theorem labels_check_guard (idx : Nat) (next : String) (row : MatchArmMeta) (guard : List Command)
    (h : l ∈ w.machine.labels (check_guard m idx next row guard)) :
    l ∈ w.machine.labels guard := by
  unfold check_guard at h
  split at h
  · simpa [World.machine] using h
  · simp at h

theorem labels_emit_match_arm (kind : Option ArmKind) (body : List Command)
    (h : l ∈ w.machine.labels (emit_match_arm m kind body)) : l ∈ w.machine.labels body := by
  unfold emit_match_arm at h
  split at h
  all_goals first | exact h | simp [World.machine] at h

theorem labels_int_body {next : String} {row : MatchArmMeta} {a : SourceArm}
    (h : ArmLowered w P m scope row a) {k : Mark}
    (hk : k.label m ∈ w.machine.labels (int_body m idx next row (RowedArm.toArm (some row, a)))) :
    k = .body idx := by
  have hforeign := h.foreign k
  simp only [int_body, Machine.labels_append, mem_append, not_or] at hk hforeign
  rcases hk with (((hk | hk) | hk) | hk) | hk
  · exact label_inj (labels_check_alts _ _ _ hk)
  · simp [labels_bind_outer] at hk
  · exact absurd (labels_check_guard _ _ _ _ hk) hforeign.1
  · exact absurd (labels_emit_match_arm _ _ hk) hforeign.2
  · simp [World.machine] at hk

theorem labels_cascade_end (registered : Bool) {k : Mark}
    (hk : k.label m ∈ w.machine.labels (cascade_end m registered)) : k = .default ∨ k = .finish := by
  unfold cascade_end at hk
  rw [Machine.labels_append, mem_append, labels_anchor] at hk
  rcases hk with hk | hk
  · split at hk
    · simp at hk
    · rw [labels_anchor, mem_singleton] at hk
      exact .inl (label_inj hk)
  · rw [mem_singleton] at hk
    exact .inr (label_inj hk)

/-- The arms from `idx` on bind labels of these arms only. -/
theorem labels_int_arms {vs : List RowedArm} {idx : Nat} {registered : Bool}
    (h : Lowered w P m scope vs) {k : Mark}
    (hk : k.label m ∈ w.machine.labels (int_arms m registered idx (vs.map RowedArm.toArm))) :
    k.Later idx := by
  induction vs generalizing idx registered with
  | nil =>
    rcases labels_cascade_end registered hk with rfl | rfl <;> trivial
  | cons v rest ih =>
    have hmono : ∀ {k : Mark}, k.Later (idx + 1) → k.Later idx := by
      intro k hk
      cases k <;> first | trivial | exact Nat.le_of_succ_le hk
    have hrest : Lowered w P m scope rest := fun row a ha => h row a (.tail _ ha)
    rcases v with ⟨_ | row, a⟩
    · exact hmono (ih hrest hk)
    · have ha := h row a (.head _)
      obtain ⟨id, hcode⟩ := int_arms_recorded registered row a rest
      rw [hcode, Machine.labels_append, mem_append, labels_anchor, mem_singleton] at hk
      rcases hk with hk | hk
      · rw [label_inj hk, armMark]
        split_ifs
        · trivial
        · exact Nat.le_refl idx
      · unfold arm_tail at hk
        split_ifs at hk
        · rw [Machine.labels_append, mem_append] at hk
          rcases hk with hk | hk
          · have := ha.foreign k
            rw [Machine.labels_append, mem_append, not_or] at this
            exact absurd (labels_emit_match_arm _ _ hk) this.2
          · exact hmono (ih hrest hk)
        · rw [Machine.labels_append, mem_append] at hk
          rcases hk with hk | hk
          · rw [labels_int_body ha hk]
            exact Nat.le_refl idx
          · exact hmono (ih hrest hk)

theorem int_arms_unrecorded {vs : List RowedArm} {registered : Bool} (h : ∀ v ∈ vs, v.1 = none) :
    int_arms m registered idx (vs.map RowedArm.toArm) = cascade_end m registered := by
  induction vs generalizing idx with
  | nil => rfl
  | cons v rest ih =>
    rcases v with ⟨_ | row, a⟩
    · exact ih fun v hv => h v (.tail _ hv)
    · exact absurd (h _ (.head _)) (by simp)

theorem target_arm {pre : List Command} {registered : Bool} {row : MatchArmMeta}
    {a : SourceArm} {rest : List RowedArm} (h : Lowered w P m scope ((some row, a) :: rest))
    (hP : P = pre ++ int_arms m registered idx (((some row, a) :: rest).map RowedArm.toArm))
    (hlast : row.is_default = true → ∀ v ∈ rest, v.1 = none) :
    w.machine.target ((armMark idx row).label m) P = some (arm_tail m idx registered row a rest) := by
  have ha := h row a (.head _)
  have hrest : Lowered w P m scope rest := fun row a ha => h row a (.tail _ ha)
  obtain ⟨id, hcode⟩ := int_arms_recorded registered row a rest
  have hsplit : P = (pre ++ [.Emit id (nop m)]) ++
      .InsertLabel ((armMark idx row).label m) id :: arm_tail m idx registered row a rest := by
    rw [hP, hcode]
    simp [anchor]
  have hnew : (armMark idx row).label m ∉
      w.machine.labels (arm_tail m idx registered row a rest) := by
    intro hmem
    unfold arm_tail at hmem
    by_cases hd : row.is_default = true
    · have hforeign := ha.foreign .default
      rw [Machine.labels_append, mem_append, not_or] at hforeign
      simp only [armMark, hd, if_true, int_arms_unrecorded (hlast hd), Machine.labels_append,
        mem_append] at hmem
      rcases hmem with hmem | hmem
      · exact hforeign.2 (labels_emit_match_arm _ _ hmem)
      · have := (mem_singleton.mp hmem : default_label m = end_label m)
        exact absurd (@label_inj m .default .finish this) (by decide)
    · simp only [armMark, hd, if_false, Machine.labels_append, mem_append, false_eq_true]
        at hmem
      rcases hmem with hmem | hmem
      · exact absurd (labels_int_body ha hmem) (by simp)
      · have : idx + 1 ≤ idx := labels_int_arms hrest hmem
        omega
  rw [hsplit]
  exact Machine.target_here rfl hnew

theorem target_end {pre : List Command} {vs : List RowedArm} {idx : Nat} {registered : Bool}
    (hP : P = pre ++ int_arms m registered idx (vs.map RowedArm.toArm)) :
    w.machine.target (end_label m) P = some [] := by
  have hend : ∃ front id, int_arms m registered idx (vs.map RowedArm.toArm) =
      front ++ [.InsertLabel (end_label m) id] := by
    clear hP
    induction vs generalizing idx registered with
    | nil =>
      refine ⟨(if registered then [] else anchor m (u32 (m.id * 100 + 997)) (default_label m)) ++
        [.Emit (u32 (m.id * 100 + 999)) (nop m)], u32 (m.id * 100 + 999), ?_⟩
      simp [int_arms, cascade_end, anchor]
    | cons v rest ih =>
      rcases v with ⟨_ | row, a⟩
      · exact ih
      · obtain ⟨id, hcode⟩ := @int_arms_recorded m idx registered row a rest
        by_cases hd : row.is_default = true
        · obtain ⟨front, id', hfront⟩ := @ih (idx + 1) true
          refine ⟨anchor m id ((armMark idx row).label m) ++
            (emit_match_arm m a.kind a.body ++ front), id', ?_⟩
          simp only [hcode, arm_tail, hd, if_true, hfront, append_assoc]
        · obtain ⟨front, id', hfront⟩ := @ih (idx + 1) registered
          refine ⟨anchor m id ((armMark idx row).label m) ++ (int_body m idx
            (next_label m idx (rest.map RowedArm.toArm)) row (RowedArm.toArm (some row, a)) ++ front),
            id', ?_⟩
          simp only [hcode, arm_tail, hd, if_false, hfront, append_assoc, false_eq_true]
  obtain ⟨front, id, hfront⟩ := hend
  have hsplit : P = (pre ++ front) ++ [.InsertLabel (end_label m) id] := by
    rw [hP, hfront, append_assoc]
  rw [hsplit]
  exact Machine.target_here rfl (by simp)

end

/-! ## The parts of an arm as they run -/

section

variable {σ : Type} {w : World σ} {P : List Command} {m : MatchNode} {idx : Nat} {next : String}
  {rest t : List Command} {s : State σ}

theorem holds_ne (s : State σ) (a b : Int64) : w.holds (s.compare a b) .Ne = (a != b) := rfl

theorem holds_eq (s : State σ) (a b : Int64) : w.holds (s.compare a b) .Eq = (a == b) := rfl

theorem holds_zero (s : State σ) (a b : Int64) : w.holds (s.compare a b) .Zero = (a == b) := rfl

/-- One compare, and the jump away where it fails. -/
theorem runs_check_one {id id' : Nat} (pv : Int64)
    (hnext : s.regs RAX ≠ pv → w.machine.target next P = some t) :
    ∃ s' : State σ, s'.regs = s.regs ∧
      w.machine.Runs P (.Emit id (cmp_rax m pv) :: .Emit id' (jcc m .Ne next) :: rest, s)
        (if s.regs RAX = pv then rest else t, s') := by
  refine ⟨s.compare (s.regs RAX) pv, rfl, (runs_cmp pv).trans ?_⟩
  by_cases hx : s.regs RAX = pv
  · rw [if_pos hx]
    exact runs_jcc_not (by rw [holds_ne]; simp [hx])
  · rw [if_neg hx]
    exact runs_jcc (by rw [holds_ne]; simp [hx]) (hnext hx)

theorem runs_multi_alt {id a_idx : Nat} {alts : List Int64} (hne : alts ≠ [])
    (hbody : w.machine.target (body_label m idx) P = some rest)
    (hnext : s.regs RAX ∉ alts → w.machine.target next P = some t) :
    ∃ s' : State σ, s'.regs = s.regs ∧
      w.machine.Runs P (multi_alt m idx next a_idx alts ++
          (anchor m id (body_label m idx) ++ rest), s)
        (if s.regs RAX ∈ alts then rest else t, s') := by
  induction alts generalizing a_idx s with
  | nil => exact absurd rfl hne
  | cons pv alts ih =>
    rw [multi_alt, cons_append, cons_append]
    cases alts with
    | nil =>
      obtain ⟨s', hregs, hrun⟩ := @runs_check_one σ w P m next
        (multi_alt m idx next (a_idx + 1) [] ++ (anchor m id (body_label m idx) ++ rest)) t s
        (u32 (m.id * 1000 + idx * 100 + a_idx * 2)) (u32 (m.id * 1000 + idx * 100 + a_idx * 2 + 1)) pv
        (fun hx => hnext (by simpa using hx))
      refine ⟨s', hregs, hrun.trans ?_⟩
      by_cases hx : s.regs RAX = pv
      · simp only [hx, if_true, mem_singleton]
        exact runs_anchor
      · simp only [hx, if_false, mem_singleton]
        exact .refl _
    | cons q alts =>
      simp only [List.isEmpty_cons, false_eq_true, if_false]
      by_cases hx : s.regs RAX = pv
      · refine ⟨s.compare (s.regs RAX) pv, rfl, (runs_cmp pv).trans ?_⟩
        rw [if_pos (show s.regs RAX ∈ pv :: q :: alts by simp [hx])]
        exact runs_jcc (by rw [holds_eq]; simp [hx]) hbody
      · obtain ⟨s', hregs, hrun⟩ := @ih (s.compare (s.regs RAX) pv) (a_idx + 1) (by simp)
          (fun hno => hnext (by simpa [hx] using hno))
        refine ⟨s', hregs, (runs_cmp pv).trans ((runs_jcc_not (by rw [holds_eq]; simp [hx])).trans ?_)⟩
        simpa [hx] using hrun

/-- The check of a pattern goes on where it holds. -/
theorem runs_check_alts {pre : List Command} {alts : List Int64} (hne : alts ≠ [])
    (hP : P = pre ++ (check_alts m idx next alts ++ rest))
    (hbody : body_label m idx ∉ w.machine.labels rest)
    (hnext : s.regs RAX ∉ alts → w.machine.target next P = some t) :
    ∃ s' : State σ, s'.regs = s.regs ∧
      w.machine.Runs P (check_alts m idx next alts ++ rest, s)
        (if s.regs RAX ∈ alts then rest else t, s') := by
  match alts, hne with
  | [pv], _ =>
    obtain ⟨s', hregs, hrun⟩ := @runs_check_one σ w P m next rest t s
      (u32 (m.id * 100 + idx * 10)) (u32 (m.id * 100 + idx * 10 + 1)) pv
      (fun hx => hnext (by simpa using hx))
    exact ⟨s', hregs, by simpa [check_alts] using hrun⟩
  | pv :: q :: alts, _ =>
    have htarget : w.machine.target (body_label m idx) P = some rest := by
      have hsplit : P = (pre ++ (multi_alt m idx next 0 (pv :: q :: alts) ++
          [.Emit (u32 (m.id * 1000 + idx * 100 + 98)) (nop m)])) ++
          .InsertLabel (body_label m idx) (u32 (m.id * 1000 + idx * 100 + 98)) :: rest := by
        rw [hP]
        simp [check_alts, anchor]
      rw [hsplit]
      exact Machine.target_here rfl hbody
    obtain ⟨s', hregs, hrun⟩ := @runs_multi_alt σ w P m idx next rest t s
      (u32 (m.id * 1000 + idx * 100 + 98)) 0 (pv :: q :: alts) (by simp) htarget hnext
    refine ⟨s', hregs, ?_⟩
    rw [check_alts, append_assoc]
    · exact hrun
    · simp
    · simp

theorem runs_bind_outer {row : MatchArmMeta} {a : SourceArm} :
    ∃ s' : State σ, s'.regs RAX = s.regs RAX ∧
      (∀ r, r ∉ binders row a → s'.regs r = s.regs r) ∧
      (∀ r ∈ binders row a, s'.regs r = s.regs RAX) ∧
      w.machine.Runs P (bind_outer m row a.live ++ rest, s) (rest, s') := by
  unfold bind_outer binders
  by_cases hb : row.outer_binder.isSome = true
  · by_cases hreg : bound_reg a.live = RAX
    · refine ⟨s, rfl, fun r _ => rfl, ?_, ?_⟩
      · simp [hb, hreg]
      · simp only [hb, hreg, ne_eq, not_true_eq_false, and_false, if_false]
        exact .refl _
    · refine ⟨s.set (bound_reg a.live) (s.regs RAX), ?_, ?_, ?_, ?_⟩
      · simp [Function.update_of_ne (Ne.symm hreg)]
      · intro r hr
        have hne : r ≠ bound_reg a.live := by simpa [hb] using hr
        simp [Function.update_of_ne hne]
      · intro r hr
        obtain rfl : r = bound_reg a.live := by simpa [hb] using hr
        simp
      · rw [if_pos ⟨hb, hreg⟩]
        exact .next rfl
  · refine ⟨s, rfl, fun r _ => rfl, ?_, ?_⟩
    · simp [hb]
    · rw [if_neg (fun h => hb h.1)]
      exact .refl _

/-- A guard that is 0 leaves 0 in `rax`, and goes away. -/
theorem runs_check_guard {row : MatchArmMeta} {a : SourceArm} {keep : List RegId}
    (hguard : row.guard = true → Lowering w P a.guard a.guard_value keep)
    (hP : check_guard m idx next row a.guard ++ rest <:+ P)
    (hnext : row.guard = true → a.guard_value s.regs = 0 → w.machine.target next P = some t) :
    ∃ s' : State σ, (∀ r ∈ keep, r ≠ RAX → s'.regs r = s.regs r) ∧
      (row.guard = false → s'.regs RAX = s.regs RAX) ∧
      (row.guard = true → s'.regs RAX = a.guard_value s.regs) ∧
      w.machine.Runs P (check_guard m idx next row a.guard ++ rest, s)
        (if row.guard = true ∧ a.guard_value s.regs = 0 then t else rest, s') := by
  unfold check_guard at hP ⊢
  by_cases hg : row.guard = true
  · simp only [hg, if_true, append_assoc, true_and] at hP ⊢
    obtain ⟨s₁, hrun, hrax, hkeep⟩ := hguard hg _ s hP
    refine ⟨s₁.compare (s₁.regs RAX &&& s₁.regs RAX) 0, hkeep, by simp, fun _ => hrax,
      hrun.trans ?_⟩
    rw [cons_append, cons_append, List.nil_append]
    refine .trans (.next rfl) ?_
    by_cases hz : a.guard_value s.regs = 0
    · rw [if_pos hz]
      refine runs_jcc ?_ (hnext hg hz)
      rw [holds_zero, Int64.and_self, hrax, hz]
      rfl
    · rw [if_neg hz]
      refine runs_jcc_not ?_
      rw [holds_zero, Int64.and_self, hrax]
      simpa using hz
  · simp only [hg, false_and, if_false, List.nil_append, false_eq_true] at hP ⊢
    exact ⟨s, fun r _ _ => rfl, fun _ => rfl, fun h => absurd h (by simp), .refl _⟩

theorem runs_emit_match_arm {a : SourceArm} {keep : List RegId} (hbody : BodyLowered w P a keep)
    (hP : emit_match_arm m a.kind a.body ++ rest <:+ P) :
    ∃ s' : State σ, s'.regs RAX = a.body_value s.regs ∧
      w.machine.Runs P (emit_match_arm m a.kind a.body ++ rest, s) (rest, s') := by
  unfold BodyLowered at hbody
  unfold emit_match_arm at hP ⊢
  split at hbody
  · rename_i value hkind
    simp only [hkind] at hP ⊢
    exact ⟨s.set RAX value, by simp [hbody], .next rfl⟩
  all_goals
    first
      | (rename_i hkind
         simp only [hkind] at hP ⊢
         obtain ⟨s', hrun, hrax, _⟩ := hbody rest s hP
         exact ⟨s', hrax, hrun⟩)
      | exact hbody.elim

end

/-! ## The cascade as it runs -/

section

variable {σ : Type} {w : World σ} {P : List Command} {m : MatchNode} {scope : List RegId}
  {f : RegId → Int64}

theorem bound_reg_live {live : List RegId} (h : bound_reg live ∈ live) : bound_reg live = RAX := by
  unfold bound_reg at h ⊢
  cases hfind : BINDER_POOL.find? (!live.contains ·) with
  | none => rfl
  | some r =>
    have hnot : r ∉ live := by simpa using List.find?_some hfind
    rw [hfind] at h
    exact absurd h hnot

/-- The registers that an arm reads, when it looks at `x`. -/
theorem agree_bindAt {row : MatchArmMeta} {a : SourceArm} {x : Int64} {g : RegId → Int64}
    (hscope : ∀ r ∈ scope, g r = f r) (hbind : ∀ r ∈ binders row a, g r = x) :
    ∀ r ∈ scope ++ binders row a, g r = bindAt row a f x r := by
  intro r hr
  unfold bindAt binders at *
  by_cases hb : row.outer_binder.isSome = true
  · simp only [hb, if_true, mem_append, mem_singleton] at hr hbind ⊢
    by_cases hreg : r = bound_reg a.live
    · rw [hreg, Function.update_self]
      exact hbind _ rfl
    · rw [Function.update_of_ne hreg]
      exact hscope r (hr.resolve_right hreg)
  · simp only [hb, List.append_nil, false_eq_true, if_false] at hr ⊢
    exact hscope r hr

theorem binders_scope {row : MatchArmMeta} {a : SourceArm} (hlive : ∀ r ∈ scope, r ∈ a.live)
    (hrax : RAX ∉ scope) {r : RegId} (hr : r ∈ scope) : r ∉ binders row a := by
  unfold binders
  split
  · intro hmem
    obtain rfl := mem_singleton.mp hmem
    exact hrax (bound_reg_live (hlive _ hr) ▸ hr)
  · simp

section

variable {pre rest t : List Command} {idx : Nat} {next : String} {row : MatchArmMeta} {a : SourceArm}
  {s : State σ} {x : Int64}

/-- What stands behind the binder of an arm. -/
def guard_and_body (m : MatchNode) (idx : Nat) (next : String) (row : MatchArmMeta) (a : SourceArm) :
    List Command :=
  check_guard m idx next row a.guard ++ (emit_match_arm m a.kind a.body ++
    [.Emit (u32 (m.id * 100 + idx * 10 + 3)) (jmp m (end_label m))])

theorem int_body_eq : int_body m idx next row (RowedArm.toArm (some row, a)) ++ rest =
      check_alts m idx next (int_alts row) ++ (bind_outer m row a.live ++
        (guard_and_body m idx next row a ++ rest)) := by
  simp [int_body, guard_and_body, RowedArm.toArm]

section

variable (ha : ArmLowered w P m scope row a)

include ha

theorem body_label_new (hbody : body_label m idx ∉ w.machine.labels rest) :
    body_label m idx ∉ w.machine.labels (bind_outer m row a.live ++
      (guard_and_body m idx next row a ++ rest)) := by
  have hforeign := ha.foreign (.body idx)
  rw [Machine.labels_append, mem_append, not_or] at hforeign
  simp only [guard_and_body, Machine.labels_append, mem_append, labels_bind_outer]
  rintro (hmem | (hmem | hmem | hmem) | hmem)
  · simp at hmem
  · exact hforeign.1 (labels_check_guard _ _ _ _ hmem)
  · exact hforeign.2 (labels_emit_match_arm _ _ hmem)
  · simp [World.machine] at hmem
  · exact hbody hmem

/-- A pattern that contains the value: the arm comes to its guard with its binder
bound. -/
theorem runs_to_guard (hrax : RAX ∉ scope)
    (hP : P = pre ++ (int_body m idx next row (RowedArm.toArm (some row, a)) ++ rest))
    (hbody : body_label m idx ∉ w.machine.labels rest) (hmem : x ∈ int_alts row)
    (hx : s.regs RAX = x) (hscope : ∀ r ∈ scope, s.regs r = f r) :
    ∃ s' : State σ, s'.regs RAX = x ∧
      (∀ r ∈ scope ++ binders row a, s'.regs r = bindAt row a f x r) ∧
      (∀ r ∈ scope, s'.regs r = f r) ∧
      w.machine.Runs P (int_body m idx next row (RowedArm.toArm (some row, a)) ++ rest, s)
        (guard_and_body m idx next row a ++ rest, s') := by
  rw [int_body_eq] at hP ⊢
  have hmem' : s.regs RAX ∈ int_alts row := hx ▸ hmem
  obtain ⟨s₁, hregs, hrun₁⟩ := @runs_check_alts σ w P m idx next _ [] s pre (int_alts row)
    (List.ne_nil_of_mem hmem) hP (body_label_new ha hbody) (fun hno => absurd hmem' hno)
  rw [if_pos hmem'] at hrun₁
  obtain ⟨s₂, hrax₂, hkeep, hbind, hrun₂⟩ := @runs_bind_outer σ w P m
    (guard_and_body m idx next row a ++ rest) s₁ row a
  have hscope₂ : ∀ r ∈ scope, s₂.regs r = f r := by
    intro r hr
    rw [hkeep r (binders_scope ha.live hrax hr), hregs]
    exact hscope r hr
  refine ⟨s₂, ?_, agree_bindAt hscope₂ ?_, hscope₂, hrun₁.trans hrun₂⟩
  · rw [hrax₂, hregs, hx]
  · intro r hr
    rw [hbind r hr, hregs, hx]

omit ha in
theorem suffix_of_eq {A B : List Command} (hP : P = pre ++ (A ++ B)) : B <:+ P :=
  ⟨pre ++ A, by rw [hP, append_assoc]⟩

omit ha in
theorem guard_suffix
    (hP : P = pre ++ (int_body m idx next row (RowedArm.toArm (some row, a)) ++ rest)) :
    check_guard m idx next row a.guard ++ (emit_match_arm m a.kind a.body ++
      ([.Emit (u32 (m.id * 100 + idx * 10 + 3)) (jmp m (end_label m))] ++ rest)) <:+ P := by
  rw [int_body_eq, ← append_assoc (check_alts ..)] at hP
  have := suffix_of_eq hP
  simpa [guard_and_body] using this

theorem runs_arm_matched (hrax : RAX ∉ scope)
    (hP : P = pre ++ (int_body m idx next row (RowedArm.toArm (some row, a)) ++ rest))
    (hbody : body_label m idx ∉ w.machine.labels rest)
    (hend : w.machine.target (end_label m) P = some []) (hmem : x ∈ int_alts row)
    (hreg : row.guard = true → row.outer_binder.isSome = true → bound_reg a.live ≠ RAX)
    (hpass : guard_passes row a f x = true) (hx : s.regs RAX = x)
    (hscope : ∀ r ∈ scope, s.regs r = f r) :
    ∃ s' : State σ, s'.regs RAX = a.body_value (bindAt row a f x) ∧
      w.machine.Runs P (int_body m idx next row (RowedArm.toArm (some row, a)) ++ rest, s)
        ([], s') := by
  obtain ⟨s₁, hrax₁, hagree, _, hrun₁⟩ := runs_to_guard ha hrax hP hbody hmem hx hscope
  have hvalue : a.guard_value s₁.regs = a.guard_value (bindAt row a f x) :=
    ha.reads_guard _ _ hagree
  have hno : ¬ (row.guard = true ∧ a.guard_value s₁.regs = 0) := by
    rintro ⟨hg, hz⟩
    rw [hvalue] at hz
    simp [guard_passes, hg, hz] at hpass
  have hsuffix := guard_suffix hP
  obtain ⟨s₂, hkeep, hun, _, hrun₂⟩ := @runs_check_guard σ w P m idx next _ [] s₁ row a
    (scope ++ binders row a) ha.guard hsuffix (fun hg hz => absurd ⟨hg, hz⟩ hno)
  rw [if_neg hno] at hrun₂
  have hagree₂ : ∀ r ∈ scope ++ binders row a, s₂.regs r = bindAt row a f x r := by
    intro r hr
    by_cases hr' : r = RAX
    · -- only a binder may live in `rax`, and then the arm has no guard
      have hg : row.guard = false := by
        by_contra hg
        have hg : row.guard = true := by simpa using hg
        rcases mem_append.mp hr with hr | hr
        · exact hrax (hr' ▸ hr)
        · unfold binders at hr
          split at hr
          · rename_i hb
            exact hreg hg hb ((mem_singleton.mp hr).symm.trans hr')
          · simp at hr
      rw [hr', hun hg, ← hr']
      exact hagree r hr
    · rw [hkeep r hr hr']
      exact hagree r hr
  obtain ⟨s₃, hrax₃, hrun₃⟩ := @runs_emit_match_arm σ w P m _ s₂ a _ ha.body
    ((List.suffix_append _ _).trans hsuffix)
  refine ⟨s₃, ?_, hrun₁.trans ?_⟩
  · rw [hrax₃]
    exact ha.reads_body _ _ hagree₂
  · rw [guard_and_body, append_assoc, append_assoc]
    exact hrun₂.trans (hrun₃.trans (runs_jmp hend))

/-- The arm that does not match leaves the value, or the 0 of its guard. -/
theorem runs_arm_left (hrax : RAX ∉ scope)
    (hP : P = pre ++ (int_body m idx next row (RowedArm.toArm (some row, a)) ++ rest))
    (hbody : body_label m idx ∉ w.machine.labels rest) (hne : int_alts row ≠ [])
    (hnext : w.machine.target next P = some t)
    (hfail : x ∈ int_alts row → guard_passes row a f x = false) (hx : s.regs RAX = x)
    (hscope : ∀ r ∈ scope, s.regs r = f r) :
    ∃ s' : State σ, s'.regs RAX = (if x ∈ int_alts row then 0 else x) ∧
      (∀ r ∈ scope, s'.regs r = f r) ∧
      w.machine.Runs P (int_body m idx next row (RowedArm.toArm (some row, a)) ++ rest, s)
        (t, s') := by
  by_cases hmem : x ∈ int_alts row
  · obtain ⟨s₁, hrax₁, hagree, hscope₁, hrun₁⟩ := runs_to_guard ha hrax hP hbody hmem hx hscope
    have hvalue : a.guard_value s₁.regs = a.guard_value (bindAt row a f x) :=
      ha.reads_guard _ _ hagree
    have hzero : row.guard = true ∧ a.guard_value s₁.regs = 0 := by
      have := hfail hmem
      rw [hvalue]
      simpa [guard_passes] using this
    obtain ⟨s₂, hkeep, _, hval, hrun₂⟩ := @runs_check_guard σ w P m idx next _ t s₁ row a
      (scope ++ binders row a) ha.guard (guard_suffix hP) (fun _ _ => hnext)
    rw [if_pos hzero] at hrun₂
    refine ⟨s₂, ?_, ?_, hrun₁.trans ?_⟩
    · rw [if_pos hmem, hval hzero.1, hzero.2]
    · intro r hr
      rw [hkeep r (List.mem_append_left _ hr) (fun h => hrax (h ▸ hr))]
      exact hscope₁ r hr
    · rw [guard_and_body, append_assoc, append_assoc]
      exact hrun₂
  · rw [int_body_eq] at hP ⊢
    have hmem' : s.regs RAX ∉ int_alts row := hx ▸ hmem
    obtain ⟨s₁, hregs, hrun₁⟩ := @runs_check_alts σ w P m idx next _ t s pre (int_alts row) hne hP
      (body_label_new ha hbody) (fun _ => hnext)
    rw [if_neg hmem'] at hrun₁
    refine ⟨s₁, ?_, ?_, hrun₁⟩
    · rw [if_neg hmem, hregs, hx]
    · intro r hr
      rw [hregs]
      exact hscope r hr

end

end

/-- Default arms have no binder. -/
def NoBinder (vs : List RowedArm) : Prop :=
  ∀ row a, (some row, a) ∈ vs → row.is_default = true → row.outer_binder = none

section

variable {pre : List Command} {idx : Nat} {registered : Bool} {row : MatchArmMeta} {a : SourceArm}
  {rest vs : List RowedArm} {x : Int64}

theorem Lowered.tail {v : RowedArm} (h : Lowered w P m scope (v :: rest)) :
    Lowered w P m scope rest :=
  fun row a ha => h row a (.tail _ ha)

theorem NoBinder.tail {v : RowedArm} (h : NoBinder (v :: rest)) : NoBinder rest :=
  fun row a ha => h row a (.tail _ ha)

theorem runs_last_default (hlow : Lowered w P m scope ((some row, a) :: rest))
    (hnb : NoBinder ((some row, a) :: rest)) (hd : row.is_default = true)
    (hlast : LastDefault f x row a rest)
    (hP : P = pre ++ int_arms m registered idx (((some row, a) :: rest).map RowedArm.toArm))
    {s : State σ} (hscope : ∀ r ∈ scope, s.regs r = f r) :
    ∃ s' : State σ, s'.regs RAX = a.body_value (bindAt row a f x) ∧
      w.machine.Runs P (arm_tail m idx registered row a rest, s) ([], s') := by
  have ha := hlow row a (.head _)
  have hbinder : row.outer_binder.isSome = false := by
    simp [hnb row a (List.mem_cons_self ..) hd]
  obtain ⟨id, hcode⟩ := int_arms_recorded registered row a rest
  have htail : arm_tail m idx registered row a rest =
      emit_match_arm m a.kind a.body ++ cascade_end m true := by
    simp only [arm_tail, hd, if_true, int_arms_unrecorded hlast.2]
  rw [hcode, htail] at hP
  obtain ⟨s', hvalue, hrun⟩ := @runs_emit_match_arm σ w P m (cascade_end m true) s a _ ha.body
    ⟨pre ++ anchor m id ((armMark idx row).label m), by rw [hP, append_assoc]⟩
  refine ⟨s', ?_, ?_⟩
  · rw [hvalue]
    refine ha.reads_body _ _ (agree_bindAt hscope ?_)
    simp [binders, hbinder]
  · rw [htail]
    exact hrun.trans runs_anchor

/-- The default label leads to the body of the one arm that matches. -/
theorem runs_default (hlow : Lowered w P m scope vs) (hnb : NoBinder vs) (h : OnlyDefault f x vs)
    (hP : P = pre ++ int_arms m registered idx (vs.map RowedArm.toArm)) :
    ∃ t, w.machine.target (default_label m) P = some t ∧
      ∀ s : State σ, (∀ r ∈ scope, s.regs r = f r) →
        ∃ s', first_match f x vs = some (s'.regs RAX) ∧ w.machine.Runs P (t, s) ([], s') := by
  induction vs generalizing pre idx registered with
  | nil => exact h.elim
  | cons v rest ih =>
    rcases v with ⟨_ | row, a⟩
    · exact ih hlow.tail hnb.tail h hP
    · simp only [OnlyDefault] at h
      by_cases hd : row.is_default = true
      · rw [if_pos hd] at h
        refine ⟨arm_tail m idx registered row a rest, ?_, fun s hscope => ?_⟩
        · have := target_arm hlow hP fun _ => h.2
          simpa [armMark, hd, label] using this
        · obtain ⟨s', hvalue, hrun⟩ := runs_last_default hlow hnb hd h hP hscope
          refine ⟨s', ?_, hrun⟩
          have hmatch : arm_matches row a f x = true := by simp [arm_matches, hd, h.1]
          rw [first_match, if_pos hmatch, hvalue]
      · rw [if_neg hd] at h
        obtain ⟨id, hcode⟩ := int_arms_recorded registered row a rest
        rw [hcode, arm_tail, if_neg hd, ← append_assoc, ← append_assoc] at hP
        obtain ⟨t, ht, hrun⟩ := ih hlow.tail hnb.tail h.2 hP
        refine ⟨t, ht, fun s hscope => ?_⟩
        rw [first_match, if_neg (by simp [h.1])]
        exact hrun s hscope

/-- The label for a failed check leads to the arms behind. -/
theorem runs_next (hlow : Lowered w P m scope rest) (hnb : NoBinder rest)
    (hP : P = pre ++ int_arms m registered (idx + 1) (rest.map RowedArm.toArm))
    (h : if Recorded rest then InOrder f x rest else OnlyDefault f x rest)
    (ih : InOrder f x rest → ∀ s : State σ, s.regs RAX = x → (∀ r ∈ scope, s.regs r = f r) →
      ∃ s', cascade f x rest = some (s'.regs RAX) ∧
        w.machine.Runs P (int_arms m registered (idx + 1) (rest.map RowedArm.toArm), s) ([], s')) :
    ∃ t, w.machine.target (next_label m idx (rest.map RowedArm.toArm)) P = some t ∧
      ∀ s : State σ, s.regs RAX = x → (∀ r ∈ scope, s.regs r = f r) →
        ∃ s', (if Recorded rest then cascade f x rest else first_match f x rest) =
            some (s'.regs RAX) ∧
          w.machine.Runs P (t, s) ([], s') := by
  by_cases hr : Recorded rest
  · simp only [if_pos hr] at h ⊢
    rcases rest with _ | ⟨⟨_ | row, a⟩, rest⟩
    · cases hr
    · cases hr
    · obtain ⟨id, hcode⟩ := @int_arms_recorded m (idx + 1) registered row a rest
      refine ⟨arm_tail m (idx + 1) registered row a rest, ?_, fun s hx hscope => ?_⟩
      · rw [next_label_recorded]
        refine target_arm hlow hP fun hd => ?_
        simp only [InOrder, hd, if_true] at h
        exact h.2
      · obtain ⟨s', hvalue, hrun⟩ := ih h s hx hscope
        rw [hcode] at hrun
        exact ⟨s', hvalue, Machine.Runs.to_end runs_anchor hrun⟩
  · simp only [if_neg hr] at h ⊢
    have hlabel : next_label m idx (rest.map RowedArm.toArm) = default_label m := by
      rcases rest with _ | ⟨⟨_ | row, a⟩, rest⟩
      · rfl
      · rfl
      · exact absurd rfl hr
    obtain ⟨t, ht, hrun⟩ := runs_default hlow hnb h hP
    exact ⟨t, hlabel ▸ ht, fun s _ hscope => hrun s hscope⟩

/-- The arms in order run to the end of the code, with the value of the cascade. -/
theorem runs_int_arms (hrax : RAX ∉ scope) (hlow : Lowered w P m scope vs) (hnb : NoBinder vs)
    (hP : P = pre ++ int_arms m registered idx (vs.map RowedArm.toArm)) (h : InOrder f x vs)
    {s : State σ} (hx : s.regs RAX = x) (hscope : ∀ r ∈ scope, s.regs r = f r) :
    ∃ s', cascade f x vs = some (s'.regs RAX) ∧
      w.machine.Runs P (int_arms m registered idx (vs.map RowedArm.toArm), s) ([], s') := by
  induction vs generalizing pre idx registered x s with
  | nil => exact h.elim
  | cons v rest ih =>
    rcases v with ⟨_ | row, a⟩
    · exact ih hlow.tail hnb.tail hP h hx hscope
    · have ha := hlow row a (.head _)
      have hend := @target_end σ w P m pre _ idx registered hP
      obtain ⟨id, hcode⟩ := int_arms_recorded registered row a rest
      by_cases hd : row.is_default = true
      · simp only [InOrder, hd, if_true] at h
        obtain ⟨s', hvalue, hrun⟩ := runs_last_default hlow hnb hd h hP hscope
        refine ⟨s', ?_, ?_⟩
        · rw [cascade, if_pos hd, hvalue]
        · rw [hcode]
          exact runs_anchor.trans hrun
      · simp only [InOrder, hd, if_false, false_eq_true] at h
        obtain ⟨hne, h⟩ := h
        rw [hcode, arm_tail, if_neg hd] at hP ⊢
        rw [← append_assoc] at hP
        have hbody : body_label m idx ∉
            w.machine.labels (int_arms m registered (idx + 1) (rest.map RowedArm.toArm)) := by
          intro hmem
          have : idx + 1 ≤ idx := @labels_int_arms σ w P m scope _ _ _ hlow.tail (.body idx) hmem
          omega
        have hP' := hP
        rw [← append_assoc] at hP'
        -- the arms behind, with the value that this arm leaves
        have hbehind : ∀ y, (if Recorded rest then InOrder f y rest else OnlyDefault f y rest) →
            ∃ t, w.machine.target (next_label m idx (rest.map RowedArm.toArm)) P = some t ∧
              ∀ s : State σ, s.regs RAX = y → (∀ r ∈ scope, s.regs r = f r) →
                ∃ s', (if Recorded rest then cascade f y rest else first_match f y rest) =
                    some (s'.regs RAX) ∧ w.machine.Runs P (t, s) ([], s') :=
          fun y hy => runs_next hlow.tail hnb.tail hP' hy
            fun h s hx hscope => ih hlow.tail hnb.tail hP' h hx hscope
        by_cases hmem : (int_alts row).contains x = true
        · have hmem' : x ∈ int_alts row := by simpa using hmem
          simp only [hmem, if_true] at h
          by_cases hpass : guard_passes row a f x = true
          · rw [if_pos hpass] at h
            obtain ⟨s', hvalue, hrun⟩ := runs_arm_matched ha hrax hP hbody hend hmem' h hpass hx hscope
            refine ⟨s', ?_, runs_anchor.trans hrun⟩
            rw [cascade, if_neg hd, if_pos hmem, if_pos hpass, hvalue]
          · rw [if_neg hpass] at h
            obtain ⟨t, ht, hafter⟩ := hbehind 0 h
            obtain ⟨s₁, hx₁, hscope₁, hrun₁⟩ := runs_arm_left ha hrax hP hbody hne ht
              (fun _ => by simpa using hpass) hx hscope
            rw [if_pos hmem'] at hx₁
            obtain ⟨s', hvalue, hrun⟩ := hafter s₁ hx₁ hscope₁
            refine ⟨s', ?_, runs_anchor.trans (hrun₁.trans hrun)⟩
            rw [cascade, if_neg hd, if_pos hmem, if_neg hpass, hvalue]
        · have hmem' : x ∉ int_alts row := by simpa using hmem
          rw [if_neg hmem] at h
          obtain ⟨t, ht, hafter⟩ := hbehind x h
          obtain ⟨s₁, hx₁, hscope₁, hrun₁⟩ := runs_arm_left ha hrax hP hbody hne ht
            (fun h => absurd h hmem') hx hscope
          rw [if_neg hmem'] at hx₁
          obtain ⟨s', hvalue, hrun⟩ := hafter s₁ hx₁ hscope₁
          refine ⟨s', ?_, runs_anchor.trans (hrun₁.trans hrun)⟩
          rw [cascade, if_neg hd, if_neg hmem, hvalue]

end

end

/-! ## The whole match -/

/-- The scrutinee is one that is loaded, and it has the value `v`. -/
def Holds {σ : Type} (s : State σ) (v : Int64) : Option Scrutinee → Prop
  | some (.Literal (some value)) => value = v
  | some (.Var (some _) (some (.Reg r)) _) => s.regs r = v
  | some (.Var (some name) none true) => s.objects name = v
  | _ => False

theorem guard_row_default {guard : Bool} {row : Option MatchArmMeta} {r : MatchArmMeta}
    (h : guard_row guard row = some r) (hd : r.is_default = true) :
    ∃ q, row = some q ∧ q.is_default = true ∧ q.outer_binder = r.outer_binder := by
  unfold guard_row at h
  split at h
  · cases row with
    | none =>
      obtain rfl := Option.some.inj h
      cases hd
    | some q =>
      obtain rfl := Option.some.inj h
      exact ⟨q, rfl, hd, rfl⟩
  · exact ⟨r, h, hd, rfl⟩

variable {row : MatchArmMeta}

theorem or_row_default {values : Option (List Int64)} (h : or_row values = some row) :
    row.is_default = false := by
  unfold or_row at h
  split at h
  · obtain rfl := Option.some.inj h
    rfl
  · cases h

theorem arm_row_default {p : Pat} (h : arm_row p = .ok (some (some row)))
    (hd : row.is_default = true) : row.outer_binder = none := by
  unfold arm_row at h
  split at h
  · obtain ⟨v, _, h⟩ := bind_eq_ok.mp h
    obtain ⟨value, rfl, rfl⟩ := Option.map_eq_some_iff.mp (Option.some.inj (Except.ok.inj h))
    cases hd
  · obtain rfl := Option.some.inj (Option.some.inj (Except.ok.inj h))
    rfl
  · have h := Except.ok.inj h
    split at h
    · obtain rfl := Option.some.inj (Option.some.inj h)
      rfl
    · cases h
  · obtain ⟨v, _, h⟩ := bind_eq_ok.mp h
    obtain ⟨q, hq, hrow⟩ := Option.map_eq_some_iff.mp (Except.ok.inj h)
    obtain rfl := Option.some.inj hrow
    exact absurd (or_row_default hq) (by simp [hd])
  · obtain ⟨v, _, h⟩ := bind_eq_ok.mp h
    obtain ⟨value, _, hrow⟩ := Option.map_eq_some_iff.mp (Except.ok.inj h)
    obtain rfl := Option.some.inj hrow
    cases hd
  · obtain ⟨v, _, h⟩ := bind_eq_ok.mp h
    obtain ⟨q, hq, hrow⟩ := Option.map_eq_some_iff.mp (Except.ok.inj h)
    obtain rfl := Option.some.inj hrow
    exact absurd (or_row_default hq) (by simpa using hd)
  · cases h
  · cases h

theorem arm_rows_default {arms : List (Pat × Bool)} {rows : List (Option MatchArmMeta)}
    (h : arm_rows arms = .ok (some rows)) (hrow : some row ∈ rows)
    (hd : row.is_default = true) : row.outer_binder = none := by
  induction arms generalizing rows with
  | nil =>
    obtain rfl := Option.some.inj (Except.ok.inj h)
    simp at hrow
  | cons arm arms ih =>
    rcases arm with ⟨pattern, guard⟩
    obtain ⟨r, hr, h⟩ := bind_eq_ok.mp h
    cases r with
    | none => cases h
    | some r =>
      cases hrows : arm_rows arms with
      | error e => simp [hrows, Except.map] at h
      | ok rest =>
        simp only [hrows, Except.map, Except.ok.injEq, Option.map_eq_some_iff] at h
        obtain ⟨rest, rfl, rfl⟩ := h
        rcases mem_cons.mp hrow with hrow | hrow
        · obtain ⟨q, rfl, hq, hbinder⟩ := guard_row_default hrow.symm hd
          rw [← hbinder]
          exact arm_row_default hr hq
        · exact ih hrows hrow

theorem IntMatch.rows_of (M : IntMatch) :
    arm_rows (M.arms.map fun a => (a.pattern, a.guarded)) = .ok (some M.rows) := by
  have h := M.accepted
  unfold classify_match_integer at h
  obtain ⟨width, _, h⟩ := bind_eq_ok.mp h
  cases width with
  | none => cases h
  | some width =>
    obtain ⟨rows, hrows, h⟩ := bind_eq_ok.mp h
    cases rows with
    | none => cases h
    | some rows =>
      simp only at h
      split_ifs at h
      · cases h
      · cases h
      · obtain rfl := Option.some.inj (Except.ok.inj h)
        exact hrows

theorem IntMatch.no_binder (M : IntMatch) : NoBinder M.rowed :=
  fun _ _ hmem hd => arm_rows_default M.rows_of (List.of_mem_zip hmem).1 hd

section

variable {σ : Type} {w : World σ}

theorem runs_scrutinee_load {P rest : List Command} {m : MatchNode} {sc : Scrutinee} {s : State σ}
    {v : Int64} (h : Holds s v (some sc)) :
    ∃ s' : State σ, s'.regs RAX = v ∧ (∀ r, r ≠ RAX → s'.regs r = s.regs r) ∧
      w.machine.Runs P (emit_int_scrutinee_load m sc ++ rest, s) (rest, s') := by
  have hset : ∀ x r, r ≠ RAX → (s.set RAX x).regs r = s.regs r := by
    intro x r hr
    simp [Function.update_of_ne hr]
  unfold Holds at h
  split at h
  all_goals try exact h.elim
  · rename_i value heq
    obtain rfl := Option.some.inj heq
    exact ⟨s.set RAX value, by simp [h], hset _, .next rfl⟩
  · rename_i name r object heq
    obtain rfl := Option.some.inj heq
    exact ⟨s.set RAX (s.regs r), by simp [h], hset _, .next rfl⟩
  · rename_i name heq
    obtain rfl := Option.some.inj heq
    exact ⟨s.set RAX (s.objects name), by simp [h], hset _, .next rfl⟩

theorem InOrder.ne_nil {f : RegId → Int64} {x : Int64} {vs : List RowedArm} (h : InOrder f x vs) :
    vs ≠ [] := by
  rintro rfl
  exact h

/-- The code of a match runs to its end with the value of the cascade. -/
theorem runs_code {M : IntMatch} {scope : List RegId} {s₀ : State σ} {v : Int64}
    (hlow : Lowered w M.code M.node scope M.rowed) (hv : Holds s₀ v M.node.scrutinee)
    (hrax : RAX ∉ scope) (h : InOrder s₀.regs v M.rowed) :
    ∃ s', cascade s₀.regs v M.rowed = some (s'.regs RAX) ∧
      w.machine.Runs M.code (M.code, s₀) ([], s') := by
  cases hsc : M.node.scrutinee with
  | none =>
    rw [hsc] at hv
    exact hv.elim
  | some sc =>
    rw [hsc] at hv
    have hcode : M.code = emit_int_scrutinee_load M.node sc ++
        int_arms M.node false 0 (M.rowed.map RowedArm.toArm) := by
      have hne : (M.rowed.map RowedArm.toArm).isEmpty = false := by
        simpa using h.ne_nil
      simp only [IntMatch.code, visit_int_match, hsc, hne, if_false, false_eq_true]
    obtain ⟨s₁, hx, hkeep, hload⟩ := @runs_scrutinee_load σ w M.code
      (int_arms M.node false 0 (M.rowed.map RowedArm.toArm)) M.node sc s₀ v hv
    obtain ⟨s', hvalue, hrun⟩ := runs_int_arms hrax hlow M.no_binder hcode h hx
      fun r hr => hkeep r fun heq => hrax (heq ▸ hr)
    rw [← hcode] at hload
    exact ⟨s', hvalue, hload.trans hrun⟩

/-- The code ends with the body of the first match in `rax`. -/
def FirstMatch (w : World σ) (M : IntMatch) (s₀ : State σ) (v : Int64) : Prop :=
  ∀ u, first_match s₀.regs v M.rowed = some u →
    ∃ s', w.machine.Runs M.code (M.code, s₀) ([], s') ∧ s'.regs RAX = u

theorem lowering_mov {P : List Command} {m : MatchNode} {r : RegId} {keep : List RegId} :
    Lowering w P [.Fresh (mov m RAX r)] (fun f => f r) keep := by
  intro rest s _
  refine ⟨s.set RAX (s.regs r), .next rfl, by simp, ?_⟩
  intro q _ hq
  simp [Function.update_of_ne hq]

end

/-- `match 5u64`, with the variable of the guards in `rsi`. -/
def five : MatchNode := ⟨1, .Mode64, true, some (.Literal (some 5)), none, none⟩

def RSI : RegId := ⟨6⟩

/-- A literal body behind a guard on the variable, or behind none. -/
def literal_arm (pattern : Pat) (guarded : Bool) (value : Int64) : SourceArm :=
  ⟨pattern, guarded, some (.Literal (some value)), [RSI], [.Fresh (mov five RAX RSI)], [],
    fun f => f RSI, fun _ => value⟩

theorem literal_arm_lowered (w : World Unit) (P : List Command) (row : MatchArmMeta)
    (pattern : Pat) (guarded : Bool) (value : Int64) :
    ArmLowered w P five [RSI] row (literal_arm pattern guarded value) where
  guard := fun _ => lowering_mov
  body := fun _ => rfl
  reads_guard := fun f g h => h RSI (by simp)
  reads_body := fun _ _ _ => rfl
  foreign := by
    intro k hk
    simp [literal_arm, World.machine] at hk
  live := fun r hr => hr

/-- `5u64 if y => 1, 5u64 => 2, _ => 3`. -/
def guarded_match : IntMatch where
  node := five
  text := .Literal ['5', 'u', '6', '4']
  arms := [literal_arm (.Literal ['5', 'u', '6', '4']) true 1,
    literal_arm (.Literal ['5', 'u', '6', '4']) false 2, literal_arm .Wildcard false 3]
  rows := [some { value_row 5 with guard := true }, some (value_row 5), some default_row]
  accepted := by rfl

/-- Every register has the value. -/
def all_regs (y : Int64) : State Unit := ⟨fun _ => y, false, false, fun _ => 0, ()⟩

def plain_world : World Unit := ⟨fun _ s => s, fun _ _ => false, fun _ _ => none⟩

theorem guarded_match_lowered :
    Lowered plain_world guarded_match.code guarded_match.node [RSI] guarded_match.rowed := by
  intro row a ha
  simp only [guarded_match, IntMatch.rowed, List.zip_cons_cons, List.zip_nil_right, mem_cons,
    Prod.mk.injEq, List.not_mem_nil, or_false] at ha
  rcases ha with ⟨_, rfl⟩ | ⟨_, rfl⟩ | ⟨_, rfl⟩ <;> exact literal_arm_lowered ..

end paideia_as_elaborator.emit_walker
