-- Machines whose instructions read and write known locations: instructions that
-- do not touch each other's locations commute, so a rearrangement that turns round
-- such pairs only runs to the same state; what a sequence with some of its
-- instructions left out comes to; and what a rewriting of windows leaves different.
import Mathlib.Data.List.Nodup
import Mathlib.Data.List.Perm.Basic
import Mathlib.Data.Set.Basic

namespace Footprint

/-- What an instruction reads decides what it reads and writes, and what it leaves
in the locations that it writes. -/
structure Machine (I L V : Type) where
  step : I → (L → V) → L → V
  reads : I → (L → V) → Set L
  writes : I → (L → V) → Set L
  frame : ∀ {i s l}, l ∉ writes i s → step i s l = s l
  reads_eq : ∀ {i s t}, (∀ l ∈ reads i s, s l = t l) → reads i t = reads i s
  writes_eq : ∀ {i s t}, (∀ l ∈ reads i s, s l = t l) → writes i t = writes i s
  step_eq : ∀ {i s t}, (∀ l ∈ reads i s, s l = t l) → ∀ l ∈ writes i s, step i t l = step i s l

variable {I L V α : Type} {M : Machine I L V}

namespace Machine

/-- The machine of instructions that read a list of locations and then assign to
others. -/
def ofAssignments [DecidableEq L] (reads : I → (L → V) → List L)
    (assigned : I → (L → V) → List (L × V))
    (local_ : ∀ i s t, (∀ l ∈ reads i s, s l = t l) →
      reads i t = reads i s ∧ assigned i t = assigned i s) : Machine I L V where
  step i s l := ((assigned i s).lookup l).getD (s l)
  reads i s := {l | l ∈ reads i s}
  writes i s := {l | ((assigned i s).lookup l).isSome}
  frame := by
    intro i s l h
    rw [Option.not_isSome_iff_eq_none.mp h]
    rfl
  reads_eq := by
    intro i s t h
    rw [(local_ i s t h).1]
  writes_eq := by
    intro i s t h
    rw [(local_ i s t h).2]
  step_eq := by
    intro i s t h l hl
    rw [(local_ i s t h).2]
    obtain ⟨v, hv⟩ := Option.isSome_iff_exists.mp hl
    rw [hv]
    rfl

/-- The state after the instructions in order. -/
def run (M : Machine I L V) (instrs : List I) (s : L → V) : L → V :=
  instrs.foldl (fun s i => M.step i s) s

@[simp] theorem run_nil (s : L → V) : M.run [] s = s := rfl

@[simp] theorem run_cons (i : I) (instrs : List I) (s : L → V) :
    M.run (i :: instrs) s = M.run instrs (M.step i s) := rfl

theorem run_append (a b : List I) (s : L → V) : M.run (a ++ b) s = M.run b (M.run a s) :=
  List.foldl_append ..

end Machine

/-! ## Independent instructions -/

/-- Neither instruction writes a location that the other reads or writes. -/
def Independent (M : Machine I L V) (a b : I) : Prop :=
  ∀ s, (∀ l ∈ M.writes a s, l ∉ M.reads b s ∧ l ∉ M.writes b s) ∧
    ∀ l ∈ M.writes b s, l ∉ M.reads a s ∧ l ∉ M.writes a s

theorem Independent.symm {a b : I} (h : Independent M a b) : Independent M b a :=
  fun s => ⟨(h s).2, (h s).1⟩

/-- One instruction does not see whether the other ran before. -/
theorem Independent.unseen {a b : I} (h : Independent M a b) (s : L → V) :
    ∀ l ∈ M.reads b s, s l = M.step a s l := by
  intro l hl
  refine (M.frame ?_).symm
  intro hw
  exact ((h s).1 l hw).1 hl

theorem Independent.commute {a b : I} (h : Independent M a b) (s : L → V) :
    M.step b (M.step a s) = M.step a (M.step b s) := by
  have hwb : M.writes b (M.step a s) = M.writes b s := M.writes_eq (h.unseen s)
  have hwa : M.writes a (M.step b s) = M.writes a s := M.writes_eq (h.symm.unseen s)
  funext l
  by_cases hb : l ∈ M.writes b s
  · have ha : l ∉ M.writes a (M.step b s) := hwa ▸ ((h s).2 l hb).2
    rw [M.step_eq (h.unseen s) l hb, M.frame ha]
  · have hb' : l ∉ M.writes b (M.step a s) := hwb ▸ hb
    rw [M.frame hb']
    by_cases ha : l ∈ M.writes a s
    · rw [M.step_eq (h.symm.unseen s) l ha]
    · rw [M.frame ha, M.frame (hwa ▸ ha), M.frame hb]

section

variable {instr : α → I}

/-- An instruction moves to the front past those it is independent of. -/
theorem run_to_front {y : α} {q : List α} :
    ∀ {p : List α} (_ : ∀ x ∈ p, Independent M (instr x) (instr y)) (s : L → V),
      M.run ((p ++ y :: q).map instr) s = M.run ((y :: (p ++ q)).map instr) s
  | [], _, _ => rfl
  | x :: p, h, s => by
    have hx := h x (.head _)
    have ih := run_to_front (q := q) (fun z hz => h z (.tail _ hz)) (M.step (instr x) s)
    simp only [List.cons_append, List.map_cons, Machine.run_cons] at ih ⊢
    rw [ih, hx.commute s]

/-- Where all pairs that change their order are independent, the state at the end
is the same. -/
theorem run_rearranged {l' : List α} : ∀ {l : List α}, l.Nodup → l.Perm l' →
      (∀ x y, [x, y].Sublist l → [y, x].Sublist l' → Independent M (instr x) (instr y)) →
      ∀ s, M.run (l.map instr) s = M.run (l'.map instr) s := by
  induction l' with
  | nil =>
    intro l _ hperm _ s
    rw [hperm.eq_nil]
  | cons y t ih =>
    intro l hnodup hperm hind s
    obtain ⟨p, q, rfl⟩ := List.append_of_mem (hperm.mem_iff.mpr (.head _))
    have hpq : (p ++ q).Perm t :=
      (List.perm_cons y).mp ((List.perm_middle.symm).trans hperm)
    have hnodup' : (y :: (p ++ q)).Nodup := List.perm_middle.nodup_iff.mp hnodup
    have hfront : ∀ x ∈ p, Independent M (instr x) (instr y) := by
      intro x hx
      apply hind x y
      · have := (List.singleton_sublist.mpr hx).append
          (List.singleton_sublist.mpr (List.mem_cons_self (a := y) (l := q)))
        exact this
      · have hxt : x ∈ t := hpq.mem_iff.mp (List.mem_append_left _ hx)
        exact (List.singleton_sublist.mpr hxt).cons_cons y
    rw [run_to_front hfront s, List.map_cons, List.map_cons, Machine.run_cons, Machine.run_cons]
    refine ih (List.nodup_cons.mp hnodup').2 hpq ?_ _
    intro x z hxz hzx
    refine hind x z (hxz.trans ?_) (hzx.cons y)
    exact (List.sublist_cons_self y q).append_left p

end

/-! ## Sequences with instructions left out -/

/-- The instructions that are marked to stay. -/
def kept (marked : List (I × Bool)) : List I := (marked.filter (·.2)).map Prod.fst

/-- Two runs side by side, from `s` with every instruction and from `t` with those
that stay: where one that stays reads a location of interest both hold the same
there, and both end in the same state. -/
def SameReads (M : Machine I L V) (seen : Set L) : List (I × Bool) → (L → V) → (L → V) → Prop
  | [], s, t => s = t
  | (i, true) :: rest, s, t =>
    (∀ l ∈ M.reads i s, l ∈ seen → s l = t l) ∧ SameReads M seen rest (M.step i s) (M.step i t)
  | (i, false) :: rest, s, t => SameReads M seen rest (M.step i s) t

theorem SameReads.run_eq {seen : Set L} {marked : List (I × Bool)} :
    ∀ {s t : L → V}, SameReads M seen marked s t →
      M.run (marked.map Prod.fst) s = M.run (kept marked) t := by
  induction marked with
  | nil =>
    intro s t h
    exact h
  | cons p rest ih =>
    obtain ⟨i, keep⟩ := p
    intro s t h
    cases keep with
    | true => exact ih h.2
    | false => exact ih h

/-- A window, the instruction in its place, and the locations at which the two may
leave different things. -/
structure Rewrite (I L V : Type) where
  old : List I
  new : Option I
  differs : (L → V) → Set L

variable {I L V : Type} {M : Machine I L V}

/-- From every state the two leave the same everywhere else. -/
def Rewrite.Sound (M : Machine I L V) (w : Rewrite I L V) : Prop :=
  ∀ s, ∀ l ∉ w.differs s, M.run w.new.toList s l = M.run w.old s l

def before (ws : List (Rewrite I L V)) : List I := ws.flatMap (·.old)

def after (ws : List (Rewrite I L V)) : List I := ws.filterMap (·.new)

@[simp] theorem before_cons (w : Rewrite I L V) (ws : List (Rewrite I L V)) :
    before (w :: ws) = w.old ++ before ws := rfl

theorem after_cons (w : Rewrite I L V) (ws : List (Rewrite I L V)) :
    after (w :: ws) = w.new.toList ++ after ws := by
  unfold after
  cases h : w.new with
  | none => rw [List.filterMap_cons_none h, Option.toList_none, List.nil_append]
  | some i => rw [List.filterMap_cons_some h, Option.toList_some, List.singleton_append]

/-- What may be different behind a window: what its rewriting leaves so, and what was
before, unless the new instruction writes it. -/
def Rewrite.spread (M : Machine I L V) (w : Rewrite I L V) (s : L → V) (stale : Set L) : Set L :=
  {l | l ∈ w.differs s ∨ l ∈ stale ∧ ∀ i ∈ w.new, l ∉ M.writes i s}

/-- In the run of the old sequence from `s`: no instruction of the new one reads a
location that may be different by then, and none is of interest at the end. -/
def Unread (M : Machine I L V) (seen : (L → V) → Set L) :
    List (Rewrite I L V) → (L → V) → Set L → Prop
  | [], s, stale => ∀ l ∈ stale, l ∉ seen s
  | w :: ws, s, stale =>
    (∀ i ∈ w.new, ∀ l ∈ M.reads i s, l ∉ stale) ∧
      Unread M seen ws (M.run w.old s) (w.spread M s stale)

/-- One window: the states agree behind it outside of what may be different. -/
theorem Rewrite.Sound.step {w : Rewrite I L V} (hw : w.Sound M) {s t : L → V} {stale : Set L}
    (hreads : ∀ i ∈ w.new, ∀ l ∈ M.reads i s, l ∉ stale) (h : ∀ l ∉ stale, t l = s l) :
    ∀ l ∉ w.spread M s stale, M.run w.new.toList t l = M.run w.old s l := by
  intro l hl
  obtain ⟨hdiff, hstale⟩ := not_or.mp hl
  rw [← hw s l hdiff]
  cases hnew : w.new with
  | none => exact h l fun hmem => hstale ⟨hmem, by simp [hnew]⟩
  | some i =>
    have hi : i ∈ w.new := hnew
    have hagree : ∀ l ∈ M.reads i s, s l = t l := fun l hl => (h l (hreads i hi l hl)).symm
    rw [Option.toList_some, Machine.run_cons, Machine.run_cons, Machine.run_nil, Machine.run_nil]
    by_cases hwrites : l ∈ M.writes i s
    · exact M.step_eq hagree l hwrites
    · rw [M.frame hwrites, M.frame (M.writes_eq hagree ▸ hwrites)]
      refine h l fun hmem => hstale ⟨hmem, ?_⟩
      intro j hj
      cases hnew.symm.trans hj
      exact hwrites

/-- The new sequence leaves what the old one does where it is of interest. -/
theorem Unread.same {seen : (L → V) → Set L} {ws : List (Rewrite I L V)} :
    ∀ {s t : L → V} {stale : Set L}, (∀ w ∈ ws, w.Sound M) → Unread M seen ws s stale →
      (∀ l ∉ stale, t l = s l) →
      ∀ l ∈ seen (M.run (before ws) s), M.run (after ws) t l = M.run (before ws) s l := by
  induction ws with
  | nil =>
    intro s t stale _ hunread h l hl
    exact h l fun hmem => hunread l hmem hl
  | cons w ws ih =>
    intro s t stale hsound hunread h l hl
    rw [before_cons, Machine.run_append] at hl ⊢
    rw [after_cons, Machine.run_append]
    have hstep := (hsound w (.head _)).step hunread.1 h
    exact ih (fun w hw => hsound w (.tail _ hw)) hunread.2 hstep l hl

/-- An instruction that stays or is left out, as a window of its own. -/
def Rewrite.ofMark (M : Machine I L V) (p : I × Bool) : Rewrite I L V where
  old := [p.1]
  new := bif p.2 then some p.1 else none
  differs s := {l | p.2 = false ∧ l ∈ M.writes p.1 s}

theorem Rewrite.ofMark_sound (M : Machine I L V) (p : I × Bool) : (ofMark M p).Sound M := by
  obtain ⟨i, keep⟩ := p
  intro s l hl
  cases keep with
  | true => rfl
  | false =>
    have hframe : M.step i s l = s l := M.frame fun hw => hl ⟨rfl, hw⟩
    exact hframe.symm

/-- Where nothing that an instruction left out wrote last is read by one that stays
or is there at the end, all reads are the same. -/
theorem Unread.sameReads {seen : Set L} {marked : List (I × Bool)} :
    ∀ {s t : L → V} {stale : Set L},
      Unread M (fun _ => Set.univ) (marked.map (.ofMark M)) s stale → (∀ l ∉ stale, t l = s l) →
      SameReads M seen marked s t := by
  induction marked with
  | nil =>
    intro s t stale hunread h
    exact funext fun l => (h l fun hl => hunread l hl trivial).symm
  | cons p marked ih =>
    intro s t stale hunread h
    have hstep := (Rewrite.ofMark_sound M p).step hunread.1 h
    obtain ⟨i, keep⟩ := p
    cases keep with
    | true => exact ⟨fun l hl _ => (h l (hunread.1 i rfl l hl)).symm, ih hunread.2 hstep⟩
    | false => exact ih hunread.2 hstep

end Footprint
