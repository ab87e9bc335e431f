-- The jump table as it runs: where a discriminant leads to, against the first arm
-- with its value and a guard that holds.
import PaideiaAs.Elaborator.Machine
import PaideiaAs.Elaborator.JumpTable

namespace paideia_as_elaborator.emit_walker

open paideia_as_runtime Flow
open List (append_assoc cons_append filter_cons map_cons mem_append mem_cons mem_singleton
  nil_append zipIdx_cons)

/-! ## Matches with a table -/

/-- An arm with its pattern, its row, the kind and the lowered form of its body, and
what its guard and its body stand for. -/
structure JumpArm (σ : Type) where
  pattern : Pat
  guarded : Bool
  arm_meta : Option MatchArmMeta
  kind : Option ArmKind
  live : List RegId
  body : List Command
  holds : State σ → Bool
  effect : State σ → State σ

/-- How a match came to its table. -/
inductive TableBy where
  | annotated
  | automatic

section

variable {σ : Type}

def JumpArm.toArm (a : JumpArm σ) : Arm (List Command) := ⟨⟨a.arm_meta, a.kind, a.live⟩, [], [], a.body⟩

def JumpArm.is_default (a : JumpArm σ) : Bool := a.arm_meta.any (·.is_default)

def JumpArm.passes (a : JumpArm σ) (s : State σ) : Bool := !a.arm_meta.any (·.guard) || a.holds s

def TableBy.value : TableBy → JumpArm σ → Option Int64
  | .annotated, a => try_extract_integer_pattern a.pattern
  | .automatic, a => (variant_of a.arm_meta).map fun idx => Int64.ofNat idx

def TableBy.Records (arms : List (JumpArm σ)) (dispatch_meta : MatchDispatchMeta)
    (arm_values : List (Int64 × Nat)) : TableBy → Prop
  | .annotated =>
    populate_match_dispatch_meta (arms.map (·.pattern)) = (dispatch_meta, arm_values) ∧
      ∀ a ∈ arms, a.arm_meta = some (literal_or_wildcard_row a.pattern a.guarded)
  | .automatic =>
    process_match_for_auto_dispatch (arms.map (·.arm_meta)) = some (dispatch_meta, arm_values) ∧
      ∀ a ∈ arms, ∀ idx, variant_of a.arm_meta = some idx → idx < 2 ^ 32

/-- A match over an enum with a table on record. Its arms are nodes with `u32` ids. -/
structure JumpMatch (σ : Type) where
  node : MatchNode
  scrutinee : Scrutinee
  layout : EnumLayout
  arms : List (JumpArm σ)
  dispatch_meta : MatchDispatchMeta
  arm_values : List (Int64 × Nat)
  by_way : TableBy
  records : by_way.Records arms dispatch_meta arm_values
  taken : dispatch_meta.is_jump_table = true
  typed : node.scrutinee = some scrutinee ∧ scrutinee.is_var = true ∧ node.layout = some layout
  few : arms.length < 2 ^ 32

namespace JumpMatch

variable (M : JumpMatch σ)

def value (a : JumpArm σ) : Option Int64 := M.by_way.value a

def values : List Int64 := M.arms.filterMap M.value

def code : List Command := visit_match_jump_table M.node M.dispatch_meta (M.arms.map JumpArm.toArm)

def entry : DataEntry := collect_jump_table_entries M.node M.dispatch_meta M.arm_values

end JumpMatch

/-- `sub`, `cmp`, `ja` and `jmp`. -/
def dispatch_sequence (m : MatchNode) (dispatch_meta : MatchDispatchMeta) : List Command :=
  (if dispatch_meta.min_arm ≠ 0 then
    [.Emit (u32 (m.id * 1000 + 1)) ⟨.Sub, [.Reg RAX, .Imm64 dispatch_meta.min_arm], none, m.mode⟩]
  else []) ++
  [.Emit (u32 (m.id * 1000 + 2)) (cmp_rax m (Int64.ofNat dispatch_meta.range - 1)),
    .Emit (u32 (m.id * 1000 + 3)) (jcc m .Above (default_label m)),
    .Emit (u32 (m.id * 1000 + 4))
      ⟨.Jmp, [.MemSymIndexed (jump_table_name m) 0 RAX .X8], none, m.mode⟩]

/-- The code from the point on where the discriminant is in `rax`. -/
def JumpMatch.dispatch (M : JumpMatch σ) : List Command :=
  dispatch_sequence M.node M.dispatch_meta ++
    jump_table_arms M.node false 0 (M.arms.map JumpArm.toArm)

variable (M : JumpMatch σ)

theorem JumpMatch.recording : Recording (M.arms.map M.value) M.dispatch_meta M.arm_values := by
  have hrec := M.records
  have hdense : M.dispatch_meta.density_ok = true := (Bool.and_eq_true_iff.mp M.taken).2
  unfold JumpMatch.value
  cases hway : M.by_way with
  | annotated =>
    rw [hway] at hrec
    have hfst : (populate_match_dispatch_meta (M.arms.map (·.pattern))).1 = M.dispatch_meta :=
      congrArg Prod.fst hrec.1
    have hsnd : (populate_match_dispatch_meta (M.arms.map (·.pattern))).2 = M.arm_values :=
      congrArg Prod.snd hrec.1
    rw [← hfst] at hdense
    have := (populate_recording hdense).1
    rwa [List.map_map, hfst, hsnd] at this
  | automatic =>
    rw [hway] at hrec
    have := auto_recording (fun row hrow idx hidx => by
      obtain ⟨a, ha, rfl⟩ := List.mem_map.mp hrow
      exact hrec.2 a ha idx hidx) hrec.1
    rwa [variant_values, List.map_map] at this

theorem JumpMatch.values_eq : (M.arms.map M.value).filterMap id = M.values := by
  rw [List.filterMap_map]
  rfl

theorem JumpMatch.arms_ne_nil : M.arms ≠ [] := by
  intro hnil
  have := M.recording.some_value
  simp [hnil] at this

theorem JumpMatch.not_default {a : JumpArm σ} (ha : a ∈ M.arms) {d : Int64}
    (hd : M.value a = some d) : a.is_default = false := by
  have hrec := M.records
  unfold JumpMatch.value at hd
  cases hway : M.by_way with
  | annotated =>
    rw [hway] at hrec hd
    have hwild : is_wildcard_pattern a.pattern = false := by
      simp only [TableBy.value, try_extract_integer_pattern] at hd
      unfold is_wildcard_pattern
      split at hd
      · rename_i hlit
        rw [hlit]
        rfl
      · cases hd
    simp [JumpArm.is_default, hrec.2 a ha, literal_or_wildcard_row, hwild]
  | automatic =>
    rw [hway] at hd
    obtain ⟨idx, hidx, _⟩ := Option.map_eq_some_iff.mp hd
    unfold variant_of at hidx
    obtain ⟨row, hrow, hidx⟩ := Option.bind_eq_some_iff.mp hidx
    split at hidx
    · cases hidx
    · rename_i hno
      simpa [JumpArm.is_default, hrow] using hno

theorem JumpMatch.dispatch_suffix : M.dispatch <:+ M.code := by
  obtain ⟨hscrutinee, hvar, hlayout⟩ := M.typed
  have hne : (M.arms.map JumpArm.toArm).isEmpty = false := by
    simpa using M.arms_ne_nil
  refine ⟨emit_scrutinee_load M.node M.layout M.scrutinee ++ (if M.layout.size > 16 then
    [.Emit (u32 (M.node.id * 1000 + 0)) (load_rdi M.node RAX 0)] else []), ?_⟩
  unfold JumpMatch.code visit_match_jump_table JumpMatch.dispatch
  rw [hscrutinee, hlayout]
  simp [hne, hvar, jump_table_head, dispatch_sequence]

/-! ## What the bodies do -/

/-- The commands run through with the effect, wherever they stand in the program. -/
def Realizes (w : World σ) (P cmds : List Command) (effect : State σ → State σ) : Prop :=
  ∀ rest s, cmds ++ rest <:+ P → w.machine.Runs P (cmds ++ rest, s) (rest, effect s)

/-- The body has the effect of its lowering, and binds no label of the match. -/
structure ArmMeans (w : World σ) (P : List Command) (m : MatchNode) (a : JumpArm σ) : Prop where
  body :
    match a.kind with
    | some .Action | some .App => Realizes w P a.body a.effect
    | some (.Literal (some value)) => ∀ s, a.effect s = s.set RAX value
    | some (.Var (some reg)) => ∀ s, a.effect s = s.set RAX (s.regs reg)
    | _ => True
  foreign : ∀ k : Mark, k.label m ∉ w.machine.labels a.body

/-- The emitter has code for the body: of a default arm only for a block. -/
def JumpArm.has_code (a : JumpArm σ) : Bool :=
  match a.kind with
  | some .Action => true
  | some .App | some (.Literal (some _)) | some (.Var (some _)) => !a.is_default
  | _ => false

/-- What the code of an arm does. -/
def JumpArm.emitted (a : JumpArm σ) (s : State σ) : State σ := if a.has_code then a.effect s else s

/-- The code of some arms, one after another. -/
def run_arms (arms : List (JumpArm σ)) (s : State σ) : State σ :=
  arms.foldl (fun s a => a.emitted s) s

/-! ## Where a discriminant leads to -/

/-- The default label stands at the last default arm, which goes on into the arm behind
it. -/
def default_run : List (JumpArm σ) → List (JumpArm σ)
  | [] => []
  | a :: rest =>
    if rest.any (·.is_default) then default_run rest
    else if a.is_default then a :: rest.head?.toList
    else default_run rest

namespace JumpMatch

variable (M : JumpMatch σ)

def last_arm (d : Int64) : Option (JumpArm σ) :=
  (M.arms.filter fun a => M.value a == some d).getLast?

/-- The arms that a discriminant is led to. -/
def lands (d : Int64) : List (JumpArm σ) :=
  match M.last_arm d with
  | some a => [a]
  | none => default_run M.arms

/-- The first arm with the value and a guard that holds, else the first default arm. -/
def chosen (d : Int64) (s : State σ) : Option (JumpArm σ) :=
  (M.arms.find? fun a => M.value a == some d && a.passes s) <|> M.arms.find? (·.is_default)

/-- The state behind `sub`. -/
def normalized (s : State σ) : State σ :=
  let lo := M.dispatch_meta.min_arm
  if lo ≠ 0 then (s.compare (s.regs RAX) lo).set RAX (s.regs RAX - lo) else s

/-- The state behind `sub` and `cmp`. -/
def arrival (s : State σ) : State σ :=
  (M.normalized s).compare ((M.normalized s).regs RAX) (Int64.ofNat M.dispatch_meta.range - 1)

/-- The state behind the body that is chosen. -/
def expected (s : State σ) : State σ :=
  match M.chosen (s.regs RAX) s with
  | some a => a.effect (M.arrival s)
  | none => M.arrival s

end JumpMatch

/-- Bounds and slots are the numbers that they stand for, and the body of the arm that
is chosen runs to the end. -/
structure Dispatched (w : World σ) (M : JumpMatch σ) (s : State σ) : Prop where
  least_arm : M.dispatch_meta.min_arm = least M.values
  range : (M.dispatch_meta.range : Int) = spread M.values
  slots : ∀ v ∈ M.values, (slot_index M.dispatch_meta.min_arm v : Int) =
      v.toInt - M.dispatch_meta.min_arm.toInt ∧
    slot_index M.dispatch_meta.min_arm v < M.dispatch_meta.range
  runs : w.machine.Runs M.code (M.dispatch, s) ([], M.expected s)

/-! ## The code of an arm -/

section

variable (m : MatchNode) (idx : Nat) (a : JumpArm σ)

def jumpMark : Mark := if a.is_default then .default else .arm idx

/-- The commands that bind the label of an arm. -/
def jump_label : List Command :=
  if a.is_default then [.RegisterLabel (default_label m)]
  else anchor m (u32 (m.id * 1000 + 100 + idx * 10)) (arm_label m idx)

/-- The commands behind the label: a default arm has no jump behind its body. -/
def jump_body : List Command :=
  if a.is_default then
    match a.kind with
    | some .Action => a.body
    | _ => []
  else
    enum_body m (u32 (m.id * 1000 + 100 + idx * 10 + 4)) (u32 (m.id * 1000 + 100 + idx * 10 + 3))
      a.kind a.body ++
    [.Emit (u32 (m.id * 1000 + 100 + idx * 10 + 5)) (jmp m (end_label m))]

variable {m idx a} {w : World σ} {P rest : List Command} {arms : List (JumpArm σ)} {registered : Bool}

theorem jump_arms_cons (hrow : a.arm_meta.isSome = true) :
    jump_table_arms m registered idx ((a :: arms).map JumpArm.toArm) =
      jump_label m idx a ++ (jump_body m idx a ++
        jump_table_arms m (registered || a.is_default) (idx + 1) (arms.map JumpArm.toArm)) := by
  obtain ⟨row, hrow⟩ := Option.isSome_iff_exists.mp hrow
  have hdef : a.is_default = row.is_default := by simp [JumpArm.is_default, hrow]
  rw [map_cons, jump_table_arms]
  unfold jump_label jump_body
  cases hd : row.is_default with
  | true =>
    simp only [JumpArm.toArm, hrow, hdef, hd, if_true, jump_table_default_arm, Bool.or_true]
    rfl
  | false => simp [JumpArm.toArm, hrow, hdef, hd, jump_table_arm]

theorem labels_jump_label : w.machine.labels (jump_label m idx a) = [(jumpMark idx a).label m] := by
  unfold jump_label jumpMark
  split <;> rfl

theorem labels_jump_body {l : String} (h : l ∈ w.machine.labels (jump_body m idx a)) :
    l ∈ w.machine.labels a.body := by
  unfold jump_body enum_body at h
  split at h
  · split at h
    · exact h
    · simp at h
  · rw [Machine.labels_append, mem_append] at h
    rcases h with h | h
    · split at h
      · exact h
      · simp [World.machine] at h
      · split at h <;> simp [World.machine] at h
      · exact h
      · simp at h
    · simp [World.machine] at h

theorem runs_jump_label {s : State σ} : w.machine.Runs P (jump_label m idx a ++ rest, s) (rest, s) := by
  unfold jump_label
  split
  · exact .next rfl
  · exact runs_anchor

theorem runs_enum_body {i j : Nat} (h : ArmMeans w P m a) (hd : a.is_default = false) {s : State σ}
    (hP : enum_body m i j a.kind a.body ++ rest <:+ P) :
    w.machine.Runs P (enum_body m i j a.kind a.body ++ rest, s) (rest, a.emitted s) := by
  have hbody := h.body
  unfold JumpArm.emitted JumpArm.has_code
  unfold enum_body at hP ⊢
  cases hkind : a.kind with
  | none => exact .refl _
  | some kind =>
    rw [hkind] at hbody hP
    cases kind with
    | Action => exact hbody rest s hP
    | App =>
      simp only [hd, Bool.not_false, if_true]
      exact hbody rest s hP
    | Literal value =>
      cases value with
      | none => exact .refl _
      | some value =>
        simp only [hd, Bool.not_false, if_true]
        rw [hbody s]
        exact .next rfl
    | Var reg =>
      cases reg with
      | none => exact .refl _
      | some reg =>
        simp only [hd, Bool.not_false, if_true]
        rw [hbody s]
        by_cases hreg : reg = RAX
        · subst hreg
          have hsame : s.set RAX (s.regs RAX) = s := by simp [State.set]
          simp only [ne_eq, not_true_eq_false, if_false, nil_append, hsame]
          exact .refl _
        · simp only [ne_eq, hreg, not_false_eq_true, if_true]
          exact .next rfl
    | Other => exact .refl _

theorem runs_jump_arm (h : ArmMeans w P m a) (hd : a.is_default = false)
    (hend : w.machine.target (end_label m) P = some []) (s : State σ)
    (hP : jump_body m idx a ++ rest <:+ P) :
    w.machine.Runs P (jump_body m idx a ++ rest, s) ([], a.emitted s) := by
  simp only [jump_body, hd, if_false, Bool.false_eq_true, append_assoc] at hP ⊢
  exact (runs_enum_body h hd hP).trans (runs_jmp hend)

theorem runs_jump_default (h : ArmMeans w P m a) (hd : a.is_default = true) (s : State σ)
    (hP : jump_body m idx a ++ rest <:+ P) :
    w.machine.Runs P (jump_body m idx a ++ rest, s) (rest, a.emitted s) := by
  have hbody := h.body
  unfold JumpArm.emitted JumpArm.has_code
  simp only [jump_body, hd, if_true] at hP ⊢
  cases hkind : a.kind with
  | none => exact .refl _
  | some kind =>
    rw [hkind] at hbody hP
    cases kind with
    | Action => exact hbody rest s hP
    | App => exact .refl _
    | Literal value => cases value <;> exact .refl _
    | Var reg => cases reg <;> exact .refl _
    | Other => exact .refl _

end

section

variable {w : World σ} {P pre : List Command} {m : MatchNode} {a : JumpArm σ}
  {arms : List (JumpArm σ)} {idx : Nat} {registered : Bool}

/-- Arms from `idx` on bind their own labels, the end label, and the default label where
one of them is a default arm or none was before. -/
theorem labels_jump_arms (hmeans : ∀ a ∈ arms, ArmMeans w P m a)
    (hrows : ∀ a ∈ arms, a.arm_meta.isSome = true) {k : Mark}
    (hk : k.label m ∈ w.machine.labels (jump_table_arms m registered idx (arms.map JumpArm.toArm))) :
    k = .finish ∨ (∃ i, idx ≤ i ∧ k = .arm i) ∨
      (k = .default ∧ (registered = false ∨ arms.any (·.is_default) = true)) := by
  induction arms generalizing idx registered with
  | nil =>
    rw [List.map_nil, jump_table_arms, jump_table_end, Machine.labels_append, mem_append,
      labels_anchor, mem_singleton] at hk
    rcases hk with hk | hk
    · split at hk
      · simp at hk
      · rename_i hreg
        rw [labels_anchor, mem_singleton] at hk
        exact .inr (.inr ⟨Mark.label_inj hk, .inl (by simpa using hreg)⟩)
    · exact .inl (Mark.label_inj hk)
  | cons a rest ih =>
    have ha := hmeans a (.head _)
    rw [jump_arms_cons (hrows a (List.mem_cons_self ..)), Machine.labels_append, mem_append,
      Machine.labels_append, mem_append, labels_jump_label, mem_singleton] at hk
    rcases hk with hk | hk | hk
    · have hk := Mark.label_inj hk
      unfold jumpMark at hk
      split at hk
      · exact .inr (.inr ⟨hk, .inr (by simp [*])⟩)
      · exact .inr (.inl ⟨idx, Nat.le_refl _, hk⟩)
    · exact absurd (labels_jump_body hk) (ha.foreign k)
    · rcases ih (fun b hb => hmeans b (.tail _ hb))
        (fun b hb => hrows b (.tail _ hb)) hk with h | ⟨i, hi, rfl⟩ | ⟨h, hwhy⟩
      · exact .inl h
      · exact .inr (.inl ⟨i, by omega, rfl⟩)
      · refine .inr (.inr ⟨h, ?_⟩)
        rw [Bool.or_eq_false_iff] at hwhy
        rcases hwhy with hwhy | hwhy
        · exact .inl hwhy.1
        · exact .inr (by simp [hwhy])

theorem target_jump_end (hrows : ∀ a ∈ arms, a.arm_meta.isSome = true)
    (hP : P = pre ++ jump_table_arms m registered idx (arms.map JumpArm.toArm)) :
    w.machine.target (end_label m) P = some [] := by
  induction arms generalizing pre idx registered with
  | nil =>
    have hsplit : P = (pre ++ ((if registered then []
        else anchor m (u32 (m.id * 1000 + 998)) (default_label m)) ++
        [.Emit (u32 (m.id * 1000 + 999)) (nop m)])) ++
        [.InsertLabel (end_label m) (u32 (m.id * 1000 + 999))] := by
      rw [hP]
      simp [jump_table_arms, jump_table_end, anchor]
    rw [hsplit]
    exact Machine.target_here rfl (by simp)
  | cons a rest ih =>
    rw [jump_arms_cons (hrows a (List.mem_cons_self ..)), ← append_assoc, ← append_assoc] at hP
    exact ih (fun b hb => hrows b (.tail _ hb)) hP

/-- The label of an arm leads behind it, where no arm behind has the same. -/
theorem target_jump_label (hrow : a.arm_meta.isSome = true)
    (hP : P = pre ++ jump_table_arms m registered idx ((a :: arms).map JumpArm.toArm))
    (hnew : (jumpMark idx a).label m ∉ w.machine.labels (jump_body m idx a ++
      jump_table_arms m (registered || a.is_default) (idx + 1) (arms.map JumpArm.toArm))) :
    w.machine.target ((jumpMark idx a).label m) P = some (jump_body m idx a ++
      jump_table_arms m (registered || a.is_default) (idx + 1) (arms.map JumpArm.toArm)) := by
  have hhere : ∀ code, (jumpMark idx a).label m ∉ w.machine.labels code →
      w.machine.target ((jumpMark idx a).label m) (jump_label m idx a ++ code) = some code := by
    intro code hcode
    unfold jump_label
    by_cases hd : a.is_default = true
    · rw [if_pos hd]
      exact @Machine.target_here _ _ _ w.machine _ [] _ _ _ (by simp [jumpMark, hd]; rfl) hcode
    · rw [if_neg hd]
      exact @Machine.target_here _ _ _ w.machine _ [_] _ _ _ (by simp [jumpMark, hd]; rfl) hcode
  rw [hP, jump_arms_cons hrow]
  exact Machine.target_of_tail (hhere _ hnew)

end

section

variable {w : World σ} {P pre : List Command} {m : MatchNode} {a : JumpArm σ}
  {arms : List (JumpArm σ)} {idx : Nat} {registered : Bool}

theorem runs_arm_label (hmeans : ∀ a ∈ arms, ArmMeans w P m a)
    (hrows : ∀ a ∈ arms, a.arm_meta.isSome = true)
    (hP : P = pre ++ jump_table_arms m registered idx (arms.map JumpArm.toArm)) {i : Nat}
    (hmem : (a, i) ∈ arms.zipIdx idx) (hd : a.is_default = false) :
    ∃ t, w.machine.target (arm_label m i) P = some t ∧
      ∀ s, w.machine.Runs P (t, s) ([], a.emitted s) := by
  have hend := @target_jump_end σ w P pre m arms idx registered hrows hP
  induction arms generalizing pre idx registered with
  | nil => simp at hmem
  | cons b rest ih =>
    have hrest := fun c hc => hmeans c (.tail _ hc)
    have hrows' := fun c hc => hrows c (.tail _ hc)
    have hcode := @jump_arms_cons σ m idx b rest registered (hrows b (.head _))
    rw [zipIdx_cons, mem_cons] at hmem
    rcases hmem with hmem | hmem
    · obtain ⟨rfl, rfl⟩ := Prod.mk.inj hmem
      have ha := hmeans a (.head _)
      have hmark : jumpMark i a = .arm i := by simp [jumpMark, hd]
      refine ⟨jump_body m i a ++
        jump_table_arms m (registered || a.is_default) (i + 1) (rest.map JumpArm.toArm), ?_, ?_⟩
      · have := @target_jump_label σ w P pre m a rest i registered (hrows a (.head _)) hP
        rw [hmark] at this
        refine this ?_
        rw [Machine.labels_append, mem_append]
        rintro (h | h)
        · exact ha.foreign (.arm i) (labels_jump_body h)
        · rcases labels_jump_arms hrest hrows' h with h | ⟨j, hj, h⟩ | ⟨h, _⟩
          · cases h
          · cases h
            omega
          · cases h
      · intro s
        refine runs_jump_arm ha hd hend s ⟨pre ++ jump_label m i a, ?_⟩
        rw [hP, hcode, append_assoc]
    · rw [hcode, ← append_assoc, ← append_assoc] at hP
      exact ih hrest hrows' hP hmem

theorem runs_default_label (hmeans : ∀ a ∈ arms, ArmMeans w P m a)
    (hrows : ∀ a ∈ arms, a.arm_meta.isSome = true)
    (hP : P = pre ++ jump_table_arms m registered idx (arms.map JumpArm.toArm))
    (hsome : registered = false ∨ arms.any (·.is_default) = true) :
    ∃ t, w.machine.target (default_label m) P = some t ∧
      ∀ s, w.machine.Runs P (t, s) ([], run_arms (default_run arms) s) := by
  have hend := @target_jump_end σ w P pre m arms idx registered hrows hP
  induction arms generalizing pre idx registered with
  | nil =>
    obtain rfl : registered = false := by simpa using hsome
    refine ⟨anchor m (u32 (m.id * 1000 + 999)) (end_label m), ?_, fun s => runs_anchor⟩
    have hsplit : P = (pre ++ [.Emit (u32 (m.id * 1000 + 998)) (nop m)]) ++
        .InsertLabel (default_label m) (u32 (m.id * 1000 + 998)) ::
        anchor m (u32 (m.id * 1000 + 999)) (end_label m) := by
      rw [hP]
      simp [jump_table_arms, jump_table_end, anchor]
    rw [hsplit]
    refine Machine.target_here rfl ?_
    rw [labels_anchor, mem_singleton]
    intro h
    exact absurd (@Mark.label_inj m .default .finish h) (by decide)
  | cons b rest ih =>
    have hrest := fun c hc => hmeans c (.tail _ hc)
    have hrows' := fun c hc => hrows c (.tail _ hc)
    have hcode := @jump_arms_cons σ m idx b rest registered (hrows b (.head _))
    by_cases hlater : rest.any (·.is_default) = true
    · rw [hcode, ← append_assoc, ← append_assoc] at hP
      rw [default_run, if_pos hlater]
      exact ih hrest hrows' hP (.inr hlater)
    · rw [default_run, if_neg hlater]
      by_cases hd : b.is_default = true
      · -- the last default arm: its body, and then the arm behind it
        have hb := hmeans b (.head _)
        have hmark : jumpMark idx b = .default := by simp [jumpMark, hd]
        have htarget := @target_jump_label σ w P pre m b rest idx registered (hrows b (.head _)) hP
        rw [hmark] at htarget
        refine ⟨_, htarget ?_, fun s => ?_⟩
        · rw [Machine.labels_append, mem_append]
          rintro (h | h)
          · exact hb.foreign .default (labels_jump_body h)
          · rcases labels_jump_arms hrest hrows' h with h | ⟨j, _, h⟩ | ⟨_, h⟩
            · cases h
            · cases h
            · simp [hd, hlater] at h
        · have hbehind : P = (pre ++ jump_label m idx b ++ jump_body m idx b) ++
              jump_table_arms m (registered || b.is_default) (idx + 1) (rest.map JumpArm.toArm) := by
            rw [hP, hcode]
            simp
          have hrun : w.machine.Runs P (jump_body m idx b ++
                jump_table_arms m (registered || b.is_default) (idx + 1) (rest.map JumpArm.toArm), s)
              (jump_table_arms m (registered || b.is_default) (idx + 1) (rest.map JumpArm.toArm),
                b.emitted s) :=
            runs_jump_default hb hd s ⟨pre ++ jump_label m idx b, by rw [hP, hcode, append_assoc]⟩
          rw [if_pos hd]
          refine hrun.trans ?_
          cases rest with
          | nil =>
            simp only [hd, Bool.or_true]
            exact runs_anchor
          | cons c rest =>
            have hc : c.is_default = false := by
              simp only [List.any_cons, Bool.or_eq_true, not_or, Bool.not_eq_true] at hlater
              exact hlater.1
            have hcode' := @jump_arms_cons σ m (idx + 1) c rest (registered || b.is_default)
              (hrows' c (.head _))
            rw [hcode'] at hbehind ⊢
            refine runs_jump_label.trans (runs_jump_arm (hrest c (.head _)) hc hend _ ?_)
            exact ⟨_, by rw [hbehind, append_assoc]⟩
      · rw [hcode, ← append_assoc, ← append_assoc] at hP
        rw [if_neg hd]
        refine ih hrest hrows' hP ?_
        rcases hsome with h | h
        · exact .inl (by simp [h, hd])
        · simp [hd, hlater] at h

end

/-! ## The dispatch as it runs -/

theorem holds_above (w : World σ) (s : State σ) (a b : Int64) :
    w.holds (s.compare a b) .Above = decide (b.toUInt64.toNat < a.toUInt64.toNat) := by
  have hword : a = b ↔ a.toUInt64.toNat = b.toUInt64.toNat := by
    constructor
    · rintro rfl
      rfl
    · intro h
      have := congrArg UInt64.toInt64 (UInt64.toNat_inj.mp h)
      simpa using this
  show (!(decide (a.toUInt64 < b.toUInt64) || a == b)) = _
  rw [Bool.eq_iff_iff]
  simp only [Bool.not_eq_true', Bool.or_eq_false_iff, decide_eq_false_iff_not, beq_eq_false_iff_ne,
    ne_eq, decide_eq_true_eq, hword, UInt64.lt_iff_toNat_lt]
  omega

section

variable {w : World σ} {P rest t : List Command} {M : JumpMatch σ} {s : State σ}

theorem normalized_rax : (M.normalized s).regs RAX = s.regs RAX - M.dispatch_meta.min_arm := by
  unfold JumpMatch.normalized
  simp only
  split
  · simp
  · rename_i hzero
    rw [not_not.mp hzero, Int64.sub_zero]

theorem World.act_table {name label : String} {index : RegId} (mode : InstrMode)
    (h : w.table name (s.regs index).toUInt64.toNat = some label) :
    w.act ⟨.Jmp, [.MemSymIndexed name 0 index .X8], none, mode⟩ s = .jump label s := by
  unfold World.act
  split
  all_goals grind

theorem arrival_slot : ((M.arrival s).regs RAX).toUInt64.toNat =
    slot_index M.dispatch_meta.min_arm (s.regs RAX) := by
  show ((M.normalized s).regs RAX).toUInt64.toNat = _
  rw [normalized_rax]
  rfl

/-- `sub` and `cmp`. -/
theorem runs_bound : w.machine.Runs P (dispatch_sequence M.node M.dispatch_meta ++ rest, s)
      (.Emit (u32 (M.node.id * 1000 + 3)) (jcc M.node .Above (default_label M.node)) ::
        .Emit (u32 (M.node.id * 1000 + 4))
          ⟨.Jmp, [.MemSymIndexed (jump_table_name M.node) 0 RAX .X8], none, M.node.mode⟩ :: rest,
        M.arrival s) := by
  unfold dispatch_sequence JumpMatch.arrival JumpMatch.normalized
  by_cases hzero : M.dispatch_meta.min_arm = 0
  · simp only [hzero, ne_eq, not_true_eq_false, if_false, nil_append, cons_append]
    exact runs_cmp _
  · simp only [ne_eq, hzero, not_false_eq_true, if_true, cons_append, nil_append]
    exact .trans (.next rfl) (runs_cmp _)

variable (hpos : 0 < M.dispatch_meta.range) (hsmall : M.dispatch_meta.range < 2 ^ 32)
include hpos hsmall

theorem above_iff : w.holds (M.arrival s) .Above =
    decide (M.dispatch_meta.range ≤ slot_index M.dispatch_meta.min_arm (s.regs RAX)) := by
  have hslot := @arrival_slot σ M s
  rw [show (M.arrival s).regs RAX = (M.normalized s).regs RAX from rfl] at hslot
  rw [JumpMatch.arrival, holds_above, bound_of_range hpos hsmall, hslot, Bool.eq_iff_iff,
    decide_eq_true_eq, decide_eq_true_eq]
  omega

/-- A discriminant outside of the table goes to the default label. -/
theorem runs_outside (h : M.dispatch_meta.range ≤ slot_index M.dispatch_meta.min_arm (s.regs RAX))
    (ht : w.machine.target (default_label M.node) P = some t) :
    w.machine.Runs P (dispatch_sequence M.node M.dispatch_meta ++ rest, s) (t, M.arrival s) := by
  refine runs_bound.trans (runs_jcc ?_ ht)
  rw [above_iff hpos hsmall]
  simpa using h

/-- A discriminant inside of the table goes where its slot says. -/
theorem runs_inside {label : String}
    (h : slot_index M.dispatch_meta.min_arm (s.regs RAX) < M.dispatch_meta.range)
    (htable : w.table (jump_table_name M.node) (slot_index M.dispatch_meta.min_arm (s.regs RAX)) =
      some label)
    (ht : w.machine.target label P = some t) :
    w.machine.Runs P (dispatch_sequence M.node M.dispatch_meta ++ rest, s) (t, M.arrival s) := by
  refine runs_bound.trans (.trans (runs_jcc_not ?_) (.jump ?_ ht))
  · rw [above_iff hpos hsmall]
    simpa using h
  · exact World.act_table M.node.mode (by rw [arrival_slot, htable])

end

/-! ## The slots of a match -/

section

variable {M : JumpMatch σ}

theorem JumpMatch.range_of_spread (h : spread M.values < 2 ^ 32) :
    (M.dispatch_meta.range : Int) = spread M.values := by
  have hrec := M.recording
  obtain ⟨v, hv⟩ := List.exists_mem_of_ne_nil _ hrec.some_value
  have hle : least M.values ≤ greatest M.values := by
    rw [M.values_eq] at hv
    exact Int64.le_trans (least_le hv) (le_greatest hv)
  rw [hrec.range, M.values_eq]
  exact range_exact hle h

/-- The slots of the values, where the range is what it stands for. -/
theorem JumpMatch.slot_exact (h : spread M.values < 2 ^ 32) {v : Int64} (hv : v ∈ M.values) :
    (slot_index M.dispatch_meta.min_arm v : Int) = v.toInt - M.dispatch_meta.min_arm.toInt ∧
      slot_index M.dispatch_meta.min_arm v < M.dispatch_meta.range := by
  have hmin : M.dispatch_meta.min_arm = least M.values := by rw [M.recording.min_arm, M.values_eq]
  have hrange := M.range_of_spread h
  have hlo := Int64.le_iff_toInt_le.mp (least_le hv)
  have hhi := Int64.le_iff_toInt_le.mp (le_greatest hv)
  have hslot := slot_emod M.dispatch_meta.min_arm v
  rw [hmin] at hslot ⊢
  unfold spread at h hrange
  omega

theorem value_pairs_filter (arms : List (JumpArm σ)) (n : Nat) (d : Int64) :
    (((arms.map M.value).zipIdx n).filterMap fun p => p.1.map fun v => (v, u32 p.2)).filter
        (·.1 == d) =
      ((arms.zipIdx n).filter fun p => M.value p.1 == some d).map fun p => (d, u32 p.2) := by
  induction arms generalizing n with
  | nil => rfl
  | cons a rest ih =>
    rw [map_cons, zipIdx_cons, zipIdx_cons, List.filterMap_cons, filter_cons]
    cases hv : M.value a with
    | none => simpa [hv] using ih (n + 1)
    | some v =>
      by_cases hd : v = d
      · subst hd
        simpa [hv] using ih (n + 1)
      · simpa [hv, hd] using ih (n + 1)

def JumpMatch.last_index (M : JumpMatch σ) (d : Int64) : Option (JumpArm σ × Nat) :=
  (M.arms.zipIdx.filter fun p => M.value p.1 == some d).getLast?

theorem JumpMatch.last_arm_eq (d : Int64) : M.last_arm d = (M.last_index d).map (·.1) := by
  have hfilter : ∀ (arms : List (JumpArm σ)) (n : Nat), arms.filter (fun a => M.value a == some d) =
        ((arms.zipIdx n).filter fun p => M.value p.1 == some d).map (·.1) := by
    intro arms
    induction arms with
    | nil => intro n; rfl
    | cons a rest ih =>
      intro n
      rw [zipIdx_cons, filter_cons, filter_cons]
      split
      · rw [map_cons, ih (n + 1)]
      · exact ih (n + 1)
  rw [last_arm, last_index, hfilter _ 0, List.getLast?_map]

theorem JumpMatch.last_index_mem {d : Int64} {a : JumpArm σ} {i : Nat}
    (h : M.last_index d = some (a, i)) :
    (a, i) ∈ M.arms.zipIdx ∧ M.value a = some d ∧ i < 2 ^ 32 := by
  have hmem := List.mem_filter.mp (List.mem_of_getLast? h)
  have hlt := List.snd_lt_of_mem_zipIdx hmem.1
  have hfew := M.few
  refine ⟨hmem.1, by simpa using hmem.2, ?_⟩
  simp only [Nat.add_zero] at hlt
  omega

theorem JumpMatch.entry_slot {d : Int64}
    (h : slot_index M.dispatch_meta.min_arm d < M.dispatch_meta.range) :
    M.entry.slot (slot_index M.dispatch_meta.min_arm d) =
      some (((M.last_index d).map fun p => arm_label M.node p.2).getD (default_label M.node)) := by
  have hfilter : (M.arm_values.filter fun p => slot_index M.dispatch_meta.min_arm p.1 ==
      slot_index M.dispatch_meta.min_arm d) = M.arm_values.filter (·.1 == d) := by
    refine List.filter_congr ?_
    intro p _
    rw [Bool.eq_iff_iff, beq_iff_eq, beq_iff_eq]
    exact slot_inj
  rw [JumpMatch.entry, slot_label h, hfilter, M.recording.arms d, value_index_pairs,
    value_pairs_filter M.arms 0 d, List.getLast?_map, Option.map_map]
  change _ = some (((M.last_index d).map fun p => arm_label M.node p.2).getD _)
  unfold JumpMatch.last_index
  cases hlast : (M.arms.zipIdx.filter fun p => M.value p.1 == some d).getLast? with
  | none => rfl
  | some p =>
    obtain ⟨_, _, hlt⟩ := M.last_index_mem (a := p.1) (i := p.2) hlast
    simp [u32_of_lt hlt]

end

/-! ## The whole match -/

section

variable {w : World σ} {M : JumpMatch σ} {s : State σ}

/-- Where nothing is cut off, a discriminant runs the arms that it is led to. -/
theorem runs_dispatch (hmeans : ∀ a ∈ M.arms, ArmMeans w M.code M.node a)
    (hrows : ∀ a ∈ M.arms, a.arm_meta.isSome = true)
    (htable : w.table (jump_table_name M.node) = M.entry.slot) (h : spread M.values < 2 ^ 32) :
    w.machine.Runs M.code (M.dispatch, s) ([], run_arms (M.lands (s.regs RAX)) (M.arrival s)) := by
  obtain ⟨front, hfront⟩ := M.dispatch_suffix
  have hcode : M.code = (front ++ dispatch_sequence M.node M.dispatch_meta) ++
      jump_table_arms M.node false 0 (M.arms.map JumpArm.toArm) := by
    rw [← hfront, JumpMatch.dispatch, append_assoc]
  have hrange := M.range_of_spread h
  have hpos : 0 < M.dispatch_meta.range := by
    obtain ⟨v, hv⟩ := List.exists_mem_of_ne_nil _ M.recording.some_value
    rw [M.values_eq] at hv
    have := (M.slot_exact h hv).2
    omega
  have hsmall : M.dispatch_meta.range < 2 ^ 32 := by omega
  generalize hd : s.regs RAX = d
  cases hlast : M.last_index d with
  | some p =>
    obtain ⟨a, i⟩ := p
    obtain ⟨hmem, hvalue, _⟩ := M.last_index_mem hlast
    have harm : a ∈ M.arms := by
      have := List.mem_zipIdx hmem
      exact this.2.2 ▸ List.getElem_mem _
    have hslot : slot_index M.dispatch_meta.min_arm d < M.dispatch_meta.range :=
      (M.slot_exact h (List.mem_filterMap.mpr ⟨a, harm, hvalue⟩)).2
    have hentry := M.entry_slot hslot
    rw [hlast] at hentry
    obtain ⟨t, ht, hrun⟩ := runs_arm_label hmeans hrows hcode hmem (M.not_default harm hvalue)
    have hlands : M.lands d = [a] := by
      rw [JumpMatch.lands, M.last_arm_eq, hlast]
      rfl
    rw [hlands]
    subst hd
    exact (runs_inside hpos hsmall hslot (by rw [htable, hentry]; rfl) ht).trans (hrun _)
  | none =>
    obtain ⟨t, ht, hrun⟩ := runs_default_label hmeans hrows hcode (.inl rfl)
    have hlands : M.lands d = default_run M.arms := by
      rw [JumpMatch.lands, M.last_arm_eq, hlast]
      rfl
    rw [hlands]
    subst hd
    refine .trans ?_ (hrun _)
    by_cases hslot : slot_index M.dispatch_meta.min_arm (s.regs RAX) < M.dispatch_meta.range
    · have hentry := M.entry_slot hslot
      rw [hlast] at hentry
      exact runs_inside hpos hsmall hslot (by rw [htable, hentry]; rfl) ht
    · exact runs_outside hpos hsmall (Nat.le_of_not_lt hslot) ht

end

end

/-- A match over an enum in `rdi`. -/
def enum_node : MatchNode :=
  ⟨1, .Mode64, false, some (.Var (some "x") (some (.Reg RDI)) false), none, some ⟨8, 0⟩⟩

/-- An arm whose body puts a value into `rax`. -/
def value_arm (pattern : Pat) (kind : ArmKind) (value : Int64) : JumpArm Unit :=
  ⟨pattern, false, some (literal_or_wildcard_row pattern false), some kind, [],
    [.Fresh (mov_imm enum_node RAX value)], fun _ => true, fun s => s.set RAX value⟩

theorem three_patterns : populate_match_dispatch_meta [.Literal ['0'], .Literal ['1'], .Wildcard] =
      (⟨true, 0, 2, 2, true⟩, [(0, 0), (1, 1)]) := by
  decide

/-- `match x @jump_table`, with `0 => 1, 1 => 2, _ => 3`, by the kind of the last body. -/
def three_arms (kind : ArmKind) : JumpMatch Unit where
  node := enum_node
  scrutinee := .Var (some "x") (some (.Reg RDI)) false
  layout := ⟨8, 0⟩
  arms := [value_arm (.Literal ['0']) (.Literal (some 1)) 1,
    value_arm (.Literal ['1']) (.Literal (some 2)) 2, value_arm .Wildcard kind 3]
  dispatch_meta := ⟨true, 0, 2, 2, true⟩
  arm_values := [(0, 0), (1, 1)]
  by_way := .annotated
  records := ⟨three_patterns, by simp [value_arm]⟩
  taken := rfl
  typed := ⟨rfl, rfl, rfl⟩
  few := (by decide : 3 < 2 ^ 32)

/-- The slots of one match as the only table. -/
def table_world (M : JumpMatch Unit) : World Unit :=
  ⟨fun _ s => s, fun _ _ => false, fun _ => M.entry.slot⟩

theorem three_arms_means (kind : ArmKind) (hkind : kind = .Action ∨ kind = .Literal (some 3)) :
    ∀ a ∈ (three_arms kind).arms,
      ArmMeans (table_world (three_arms kind)) (three_arms kind).code (three_arms kind).node a := by
  have hforeign : ∀ (pattern : Pat) (k : ArmKind) (v : Int64) (l : Mark), l.label enum_node ∉
      (table_world (three_arms kind)).machine.labels (value_arm pattern k v).body := by
    intro pattern k v l hl
    simp [value_arm, World.machine] at hl
  intro a ha
  simp only [three_arms, mem_cons, List.not_mem_nil, or_false] at ha
  rcases ha with rfl | rfl | rfl
  · exact ⟨fun _ => rfl, hforeign _ _ _⟩
  · exact ⟨fun _ => rfl, hforeign _ _ _⟩
  · rcases hkind with rfl | rfl
    · exact ⟨fun _ _ _ => .next rfl, hforeign _ _ _⟩
    · exact ⟨fun _ => rfl, hforeign _ _ _⟩

theorem three_arms_rows (kind : ArmKind) : ∀ a ∈ (three_arms kind).arms, a.arm_meta.isSome = true := by
  simp [three_arms, value_arm]

def discriminant (d : Int64) : State Unit := ⟨fun _ => d, false, false, fun _ => 0, ()⟩

end paideia_as_elaborator.emit_walker
