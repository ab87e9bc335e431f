-- The scopes of the arms of an `if` or a `match` joined into one (`branch_merge.rs`): the
-- join does not depend on the order of the arms nor on how they are grouped.
import PaideiaAs.Elaborator.Modules
import Mathlib.Data.List.Pairwise

namespace paideia_as_elaborator.branch_merge

open paideia_as_diagnostics paideia_as_elaborator.modules
open List (mem_append mem_flatMap mem_map mem_singleton nodup_cons)
open Assoc (keys lookup_cons_ite lookup_isSome)
open Prod (fst)
open Option (isSome_iff_exists isSome_some map_eq_some_iff map_some)

/-! ## The merge -/

/-- The bindings of an arm, in the order in which the hash map gives them. -/
abbrev Scope := List (Symbol × Binding)

def S_BRANCH_MISMATCH : Nat := 906

def must_agree (b : Binding) : Bool := b.class_ = .Linear ∨ b.class_ = .Ordered

/-- The joined count is the maximum. -/
def raise (existing b : Binding) : Binding :=
  if existing.uses < b.uses then { existing with uses := b.uses } else existing

def disagreement (existing b : Binding) : List Diagnostic :=
  if must_agree b ∧ existing.uses ≠ b.uses then
    [⟨.S, S_BRANCH_MISMATCH, "branches disagree on uses of " ++ b.class_.debug ++ " binding: " ++
      toString existing.uses ++ " vs " ++ toString b.uses, b.bind_span⟩]
  else []

def merge_entries : Scope → Scope → Scope × List Diagnostic
  | joined, [] => (joined, [])
  | joined, (sym, b) :: arm =>
    match joined.lookup sym with
    | none => merge_entries joined arm
    | some existing =>
      let rest := merge_entries (Assoc.insert joined sym (raise existing b)) arm
      (rest.1, disagreement existing b ++ rest.2)

/-- Only the symbols of the arm stay. -/
def retain (joined arm : Scope) : Scope := joined.filter fun e => (arm.lookup e.1).isSome

def merge_arms : Scope → List Scope → Scope × List Diagnostic
  | joined, [] => (joined, [])
  | joined, arm :: arms =>
    let merged := merge_entries (retain joined arm) arm
    let rest := merge_arms merged.1 arms
    (rest.1, merged.2 ++ rest.2)

def merge_branches : List Scope → Scope × List Diagnostic
  | [] => ([], [])
  | first :: arms =>
    let merged := merge_arms first arms
    (merged.1, merged.2.insertionSort fun a b =>
      a.primary_span.byte_start ≤ b.primary_span.byte_start)

/-! ## One arm -/

theorem lookup_retain (joined arm : Scope) (s : Symbol) :
    (retain joined arm).lookup s = if (arm.lookup s).isSome then joined.lookup s else none := by
  unfold retain
  rw [← Assoc.lookup_filter joined (fun s => (arm.lookup s).isSome) s]
  simp only [Bool.decide_eq_true]

variable {joined arm a : Scope} {b : Binding} {s : Symbol} {arms' : List Scope}

theorem nodup_merge_entries (h : (keys joined).Nodup) (arm : Scope) :
    (keys (merge_entries joined arm).1).Nodup := by
  induction arm generalizing joined with
  | nil => exact h
  | cons e arm ih =>
    unfold merge_entries
    split
    · exact ih h
    · exact ih (Assoc.nodup_insert h _ _)

/-- Each symbol of the arm is raised on its own. -/
theorem lookup_merge_entries (joined : Scope) (harm : (keys arm).Nodup)
    (s : Symbol) : (merge_entries joined arm).1.lookup s =
      (joined.lookup s).map fun e => (arm.lookup s).elim e (raise e) := by
  induction arm generalizing joined with
  | nil => simp [merge_entries]
  | cons entry arm ih =>
    obtain ⟨sym, b⟩ := entry
    obtain ⟨hfresh, harm⟩ := nodup_cons.1 harm
    have hnone : arm.lookup sym = none := Assoc.lookup_none.2 hfresh
    unfold merge_entries
    rw [lookup_cons_ite]
    split
    · rename_i habsent
      rw [ih joined harm]
      by_cases hs : s = sym
      · rw [hs, habsent]
        rfl
      · rw [if_neg hs]
    · rename_i existing hpresent
      dsimp only
      rw [ih _ harm, Assoc.lookup_insert]
      by_cases hs : s = sym
      · rw [hs, if_pos rfl, if_pos rfl, hnone, hpresent]
        rfl
      · rw [if_neg hs, if_neg hs]

theorem disagreement_ne_nil {existing : Binding} :
    disagreement existing b ≠ [] ↔ must_agree b = true ∧ existing.uses ≠ b.uses := by
  unfold disagreement
  split <;> simp [*]

/-- A diagnostic comes from a symbol of both whose counts differ. -/
theorem merge_entries_reports (joined : Scope) (harm : (keys arm).Nodup) :
    (merge_entries joined arm).2 ≠ [] ↔ ∃ s e b, joined.lookup s = some e ∧
      arm.lookup s = some b ∧ must_agree b = true ∧ e.uses ≠ b.uses := by
  induction arm generalizing joined with
  | nil => simp [merge_entries]
  | cons entry arm ih =>
    obtain ⟨sym, b⟩ := entry
    obtain ⟨hfresh, harm⟩ := nodup_cons.1 harm
    have hnone : arm.lookup sym = none := Assoc.lookup_none.2 hfresh
    have hne : ∀ {s c}, arm.lookup s = some c → s ≠ sym := by
      rintro s c hc rfl
      rw [hnone] at hc
      cases hc
    unfold merge_entries
    split
    · rename_i habsent
      rw [ih joined harm]
      constructor
      · rintro ⟨s, e, c, he, hc, h⟩
        exact ⟨s, e, c, he, by rw [lookup_cons_ite, if_neg (hne hc), hc], h⟩
      · rintro ⟨s, e, c, he, hc, h⟩
        rw [lookup_cons_ite] at hc
        split at hc
        · rename_i hs
          rw [hs, habsent] at he
          cases he
        · exact ⟨s, e, c, he, hc, h⟩
    · rename_i existing hpresent
      dsimp only
      rw [ne_eq, List.append_eq_nil_iff, not_and_or, ← ne_eq, ← ne_eq, disagreement_ne_nil,
        ih _ harm]
      constructor
      · rintro (h | ⟨s, e, c, he, hc, h⟩)
        · exact ⟨sym, existing, b, hpresent, by rw [lookup_cons_ite, if_pos rfl], h⟩
        · rw [Assoc.lookup_insert, if_neg (hne hc)] at he
          exact ⟨s, e, c, he, by rw [lookup_cons_ite, if_neg (hne hc), hc], h⟩
      · rintro ⟨s, e, c, he, hc, h⟩
        rw [lookup_cons_ite] at hc
        split at hc
        · rename_i hs
          rw [hs, hpresent] at he
          cases he
          cases hc
          exact .inl h
        · rename_i hs
          exact .inr ⟨s, e, c, by rw [Assoc.lookup_insert, if_neg hs, he], hc, h⟩

/-! ## Joins -/

/-- A symbol bound before the fork is in every arm with its class; another one is in one
arm only. -/
structure Forked (bound : Symbol → Prop) (cls : Symbol → LinClass) (arms : List Scope) : Prop where
  map : ∀ a ∈ arms, (keys a).Nodup
  everywhere : ∀ s, bound s → ∀ a ∈ arms, ∃ b, a.lookup s = some b ∧ b.class_ = cls s
  once : ∀ s, ¬bound s → arms.Pairwise fun a a' => ¬(s ∈ keys a ∧ s ∈ keys a')

/-- Two arms give different counts to a symbol on which they must agree. -/
def Disagree (arms : List Scope) : Prop :=
  ∃ s, ∃ a ∈ arms, ∃ a' ∈ arms, ∃ b b', a.lookup s = some b ∧ a'.lookup s = some b' ∧
    must_agree b = true ∧ b.uses ≠ b'.uses

/-- The symbols that all arms have, each with the greatest of its counts. -/
structure JoinOf (arms : List Scope) (joined : Scope) : Prop where
  map : (keys joined).Nodup
  common : ∀ s, s ∈ keys joined ↔ ∀ a ∈ arms, s ∈ keys a
  attained : ∀ s e, joined.lookup s = some e → ∃ a ∈ arms, ∃ b, a.lookup s = some b ∧
    b.uses = e.uses
  greatest : ∀ s e, joined.lookup s = some e → ∀ a ∈ arms, ∀ b, a.lookup s = some b →
    b.uses ≤ e.uses
  kind : ∀ s e, joined.lookup s = some e → ∃ a ∈ arms, ∃ b, a.lookup s = some b ∧
    b.class_ = e.class_

variable {bound : Symbol → Prop} {cls : Symbol → LinClass} {arms : List Scope}

section

variable (h : Forked bound cls arms)

include h

theorem Forked.bound_of_ne {a' : Scope} {b' : Binding}
    (ha : a ∈ arms) (ha' : a' ∈ arms) (hb : a.lookup s = some b) (hb' : a'.lookup s = some b')
    (hne : b.uses ≠ b'.uses) : bound s := by
  by_contra hs
  have haa : a ≠ a' := by
    rintro rfl
    rw [hb] at hb'
    cases hb'
    exact hne rfl
  have hsymm : Std.Symm fun a a' : Scope => ¬(s ∈ keys a ∧ s ∈ keys a') :=
    ⟨fun _ _ h h' => h h'.symm⟩
  apply (h.once s hs).forall ha ha' haa
  rw [← lookup_isSome, ← lookup_isSome, hb, hb']
  exact ⟨rfl, rfl⟩

theorem Forked.class_eq (hs : bound s) (ha : a ∈ arms)
    (hb : a.lookup s = some b) : b.class_ = cls s := by
  obtain ⟨b', hb', hc⟩ := h.everywhere s hs a ha
  rw [hb] at hb'
  cases hb'
  exact hc

theorem Forked.sublist (hsub : arms'.Sublist arms) : Forked bound cls arms' where
  map a ha := h.map a (hsub.subset ha)
  everywhere s hs a ha := h.everywhere s hs a (hsub.subset ha)
  once s hs := (h.once s hs).sublist hsub

theorem Forked.perm (hp : arms'.Perm arms) : Forked bound cls arms' where
  map a ha := h.map a (hp.subset ha)
  everywhere s hs a ha := h.everywhere s hs a (hp.subset ha)
  once s hs := (hp.pairwise_iff fun h h' => h h'.symm).2 (h.once s hs)

theorem Forked.bound_mem (hs : bound s) (ha : a ∈ arms) : s ∈ keys a := by
  obtain ⟨b, hb, -⟩ := h.everywhere s hs a ha
  rw [← lookup_isSome, hb]
  rfl

end

theorem Disagree.mono (h : Disagree arms) (hsub : ∀ a ∈ arms, a ∈ arms') : Disagree arms' := by
  obtain ⟨s, a, ha, a', ha', h⟩ := h
  exact ⟨s, a, hsub a ha, a', hsub a' ha', h⟩

theorem joinOf_single (ha : (keys a).Nodup) : JoinOf [a] a where
  map := ha
  common s := by simp
  attained s e he := ⟨a, List.mem_singleton_self a, e, he, rfl⟩
  greatest s e he a' ha' b hb := by
    rw [mem_singleton.1 ha', he] at hb
    cases hb
    exact Nat.le_refl _
  kind s e he := ⟨a, List.mem_singleton_self a, e, he, rfl⟩

theorem not_disagree_single (a : Scope) : ¬Disagree [a] := by
  rintro ⟨s, c, hc, c', hc', b, b', hb, hb', -, hne⟩
  rw [mem_singleton.1 hc] at hb
  rw [mem_singleton.1 hc', hb] at hb'
  cases hb'
  exact hne rfl

theorem raise_class (e b : Binding) : (raise e b).class_ = e.class_ := by
  unfold raise
  split <;> rfl

theorem raise_uses (e b : Binding) : (raise e b).uses = max e.uses b.uses := by
  unfold raise
  split
  · rename_i hlt
    exact (Nat.max_eq_right hlt.le).symm
  · rename_i hlt
    exact (Nat.max_eq_left (Nat.not_lt.1 hlt)).symm

theorem joinOf_arm (h : JoinOf arms joined) (harm : (keys arm).Nodup) :
    JoinOf (arms ++ [arm]) (merge_entries (retain joined arm) arm).1 := by
  have hlook := lookup_merge_entries (retain joined arm) harm
  simp only [lookup_retain] at hlook
  -- an entry of the result comes from one of the join and one of the arm
  have hfrom : ∀ {s r}, (merge_entries (retain joined arm) arm).1.lookup s = some r →
      ∃ e b, joined.lookup s = some e ∧ arm.lookup s = some b ∧ r = raise e b := by
    intro s r hr
    rw [hlook] at hr
    cases hb : arm.lookup s with
    | none =>
      rw [hb] at hr
      cases hr
    | some b =>
      rw [hb, isSome_some, if_pos rfl] at hr
      obtain ⟨e, he, hr⟩ := map_eq_some_iff.1 hr
      exact ⟨e, b, he, rfl, hr.symm⟩
  refine ⟨nodup_merge_entries (Assoc.nodup_filter h.map _) arm, ?_, ?_, ?_, ?_⟩
  · intro s
    rw [← lookup_isSome, hlook, Option.isSome_map]
    simp only [mem_append, mem_singleton]
    split
    · rename_i hs
      rw [lookup_isSome, h.common]
      rw [lookup_isSome] at hs
      constructor
      · rintro hall a (ha | rfl)
        · exact hall a ha
        · exact hs
      · intro hall a ha
        exact hall a (.inl ha)
    · rename_i hs
      rw [lookup_isSome] at hs
      exact iff_of_false Bool.false_ne_true fun hall => hs (hall arm (.inr rfl))
  · intro s r hr
    obtain ⟨e, b, he, hb, rfl⟩ := hfrom hr
    rw [raise_uses]
    by_cases hlt : e.uses < b.uses
    · exact ⟨arm, by simp, b, hb, (Nat.max_eq_right hlt.le).symm⟩
    · obtain ⟨a, ha, b', hb', huses⟩ := h.attained s e he
      exact ⟨a, List.mem_append_left _ ha, b', hb',
        huses.trans (Nat.max_eq_left (Nat.not_lt.1 hlt)).symm⟩
  · intro s r hr a ha c hc
    obtain ⟨e, b, he, hb, rfl⟩ := hfrom hr
    rw [raise_uses]
    rcases mem_append.1 ha with ha | ha
    · exact le_max_of_le_left (h.greatest s e he a ha c hc)
    · rw [mem_singleton.1 ha, hb] at hc
      cases hc
      exact le_max_right _ _
  · intro s r hr
    obtain ⟨e, b, he, hb, rfl⟩ := hfrom hr
    obtain ⟨a, ha, b', hb', hclass⟩ := h.kind s e he
    exact ⟨a, List.mem_append_left _ ha, b', hb', hclass.trans (raise_class e b).symm⟩

theorem disagree_arm (h : JoinOf arms joined)
    (hf : Forked bound cls (arms ++ [arm])) : Disagree (arms ++ [arm]) ↔
      Disagree arms ∨ (merge_entries (retain joined arm) arm).2 ≠ [] := by
  have hin : arm ∈ arms ++ [arm] := List.mem_append_right _ (List.mem_singleton_self arm)
  have hleft : ∀ {a}, a ∈ arms → a ∈ arms ++ [arm] := fun ha => List.mem_append_left _ ha
  rw [merge_entries_reports _ (hf.map arm hin)]
  constructor
  · -- the new arm against an older one, whose count may or may not be the greatest
    have hnew : ∀ {s a b c}, a ∈ arms → a.lookup s = some b → arm.lookup s = some c →
        must_agree b = true → b.uses ≠ c.uses → Disagree arms ∨ ∃ s e b,
          (retain joined arm).lookup s = some e ∧ arm.lookup s = some b ∧ must_agree b = true ∧
            e.uses ≠ b.uses := by
      intro s a b c ha hb hc hagree hne
      have hs := hf.bound_of_ne (hleft ha) hin hb hc hne
      have hsome : (joined.lookup s).isSome := by
        rw [lookup_isSome, h.common]
        exact fun a' ha' => hf.bound_mem hs (hleft ha')
      obtain ⟨e, he⟩ := isSome_iff_exists.1 hsome
      by_cases heq : e.uses = c.uses
      · obtain ⟨a', ha', b', hb', huses⟩ := h.attained s e he
        exact .inl ⟨s, a, ha, a', ha', b, b', hb, hb', hagree, by omega⟩
      · refine .inr ⟨s, e, c, ?_, hc, ?_, heq⟩
        · rw [lookup_retain, hc, isSome_some, if_pos rfl, he]
        · unfold must_agree at *
          rwa [hf.class_eq hs hin hc, ← hf.class_eq hs (hleft ha) hb]
    rintro ⟨s, a, ha, a', ha', b, b', hb, hb', hagree, hne⟩
    rcases mem_append.1 ha with ha1 | ha1
    · rcases mem_append.1 ha' with ha2 | ha2
      · exact .inl ⟨s, a, ha1, a', ha2, b, b', hb, hb', hagree, hne⟩
      · rw [mem_singleton.1 ha2] at hb'
        exact hnew ha1 hb hb' hagree hne
    · rcases mem_append.1 ha' with ha2 | ha2
      · have hs := hf.bound_of_ne ha ha' hb hb' hne
        rw [mem_singleton.1 ha1] at hb
        apply hnew ha2 hb' hb ?_ (Ne.symm hne)
        unfold must_agree at *
        rwa [hf.class_eq hs ha' hb', ← hf.class_eq hs hin hb]
      · rw [mem_singleton.1 ha1] at hb
        rw [mem_singleton.1 ha2, hb] at hb'
        cases hb'
        exact absurd rfl hne
  · rintro (hold | ⟨s, e, b, he, hb, hagree, hne⟩)
    · exact hold.mono fun a ha => hleft ha
    · rw [lookup_retain, hb, isSome_some, if_pos rfl] at he
      obtain ⟨a, ha, b', hb', huses⟩ := h.attained s e he
      exact ⟨s, arm, hin, a, hleft ha, b, b', hb, hb', hagree, by omega⟩

/-! ## Any number of arms, in groups -/

theorem merge_arms_spec (later : List Scope) (h : JoinOf arms joined)
    (hf : Forked bound cls (arms ++ later)) : JoinOf (arms ++ later) (merge_arms joined later).1 ∧
      (Disagree (arms ++ later) ↔ Disagree arms ∨ (merge_arms joined later).2 ≠ []) := by
  induction later generalizing arms joined with
  | nil => simpa [merge_arms] using h
  | cons arm later ih =>
    have hsplit : arms ++ arm :: later = arms ++ [arm] ++ later := by simp
    rw [hsplit] at hf ⊢
    have hf' := hf.sublist (List.sublist_append_left (arms ++ [arm]) later)
    obtain ⟨hjoin, hdis⟩ := ih (joinOf_arm h (hf'.map arm (by simp))) hf
    refine ⟨hjoin, ?_⟩
    unfold merge_arms
    dsimp only
    have happ : ∀ {xs ys : List Diagnostic}, xs ++ ys ≠ [] ↔ xs ≠ [] ∨ ys ≠ [] := by
      intro xs ys
      rw [ne_eq, List.append_eq_nil_iff, not_and_or]
    rw [hdis, disagree_arm h hf', or_assoc, happ]

theorem merge_branches_spec (hne : arms ≠ []) (hf : Forked bound cls arms) :
    JoinOf arms (merge_branches arms).1 ∧ (Disagree arms ↔ (merge_branches arms).2 ≠ []) := by
  cases arms with
  | nil => exact absurd rfl hne
  | cons first later =>
    obtain ⟨hjoin, hdis⟩ := merge_arms_spec later (joinOf_single (hf.map first (.head _))) hf
    refine ⟨hjoin, ?_⟩
    rw [List.singleton_append] at hdis
    unfold merge_branches
    rw [hdis, or_iff_right (not_disagree_single first), ← List.length_pos_iff, ← List.length_pos_iff,
      List.length_insertionSort]

/-- Arms merged in groups: a group is merged first, and its join then stands as one arm.
With the arms of all the groups, the last join and whether there was a report. -/
inductive Grouped : List Scope → Scope → Bool → Prop
  | arm (a : Scope) : Grouped [a] a false
  | group {groups : List (List Scope × Scope × Bool)} :
    groups ≠ [] → (∀ g ∈ groups, Grouped g.1 g.2.1 g.2.2) →
      Grouped (groups.flatMap fst) (merge_branches (groups.map fun g => g.2.1)).1
        (groups.any (fun g => g.2.2) || !(merge_branches (groups.map fun g => g.2.1)).2.isEmpty)

theorem Grouped.ne_nil {reported : Bool} (h : Grouped arms joined reported) : arms ≠ [] := by
  induction h with
  | arm a => exact List.cons_ne_nil a []
  | @group groups hne _ ih =>
    obtain ⟨g, rest, rfl⟩ := List.exists_cons_of_ne_nil hne
    rw [List.flatMap_cons]
    exact List.append_ne_nil_of_left_ne_nil (ih g (.head _)) _

section

variable {groups : List (List Scope × Scope × Bool)}
  (hf : Forked bound cls (groups.flatMap fst))
  (hg : ∀ g ∈ groups, g.1 ≠ [] ∧ JoinOf g.1 g.2.1)

include hf hg

theorem bound_lookup (hs : bound s) {g : List Scope × Scope × Bool}
    (hmem : g ∈ groups) : ∃ e, g.2.1.lookup s = some e ∧ e.class_ = cls s := by
  have hin : ∀ a ∈ g.1, a ∈ groups.flatMap fst := fun a ha =>
    mem_flatMap.2 ⟨g, hmem, ha⟩
  have hjoin := (hg g hmem).2
  have hsome : (g.2.1.lookup s).isSome := by
    rw [lookup_isSome, hjoin.common]
    exact fun a ha => hf.bound_mem hs (hin a ha)
  obtain ⟨e, he⟩ := isSome_iff_exists.1 hsome
  obtain ⟨a, ha, b, hb, hclass⟩ := hjoin.kind s e he
  exact ⟨e, he, hclass.symm.trans (hf.class_eq hs (hin a ha) hb)⟩

theorem forked_groups : Forked bound cls (groups.map fun g => g.2.1) where
  map a ha := by
    obtain ⟨g, hmem, rfl⟩ := mem_map.1 ha
    exact (hg g hmem).2.map
  everywhere s hs a ha := by
    obtain ⟨g, hmem, rfl⟩ := mem_map.1 ha
    exact bound_lookup hf hg hs hmem
  once s hs := by
    have hpairs := (List.pairwise_flatMap.1 (hf.once s hs)).2
    rw [List.pairwise_map]
    apply hpairs.imp_of_mem
    rintro g g' hmem hmem' hapart ⟨hin, hin'⟩
    obtain ⟨a, ha⟩ := List.exists_mem_of_ne_nil _ (hg g hmem).1
    obtain ⟨a', ha'⟩ := List.exists_mem_of_ne_nil _ (hg g' hmem').1
    exact hapart a ha a' ha' ⟨((hg g hmem).2.common s).1 hin a ha,
      ((hg g' hmem').2.common s).1 hin' a' ha'⟩

omit hf in
theorem joinOf_groups (h : JoinOf (groups.map fun g => g.2.1) joined) :
    JoinOf (groups.flatMap fst) joined where
  map := h.map
  common s := by
    rw [h.common]
    constructor
    · intro hall a ha
      obtain ⟨g, hmem, ha⟩ := mem_flatMap.1 ha
      exact ((hg g hmem).2.common s).1 (hall _ (mem_map.2 ⟨g, hmem, rfl⟩)) a ha
    · intro hall j hj
      obtain ⟨g, hmem, rfl⟩ := mem_map.1 hj
      exact ((hg g hmem).2.common s).2 fun a ha => hall a (mem_flatMap.2 ⟨g, hmem, ha⟩)
  attained s e he := by
    obtain ⟨j, hj, b, hb, huses⟩ := h.attained s e he
    obtain ⟨g, hmem, rfl⟩ := mem_map.1 hj
    obtain ⟨a, ha, b', hb', huses'⟩ := (hg g hmem).2.attained s b hb
    exact ⟨a, mem_flatMap.2 ⟨g, hmem, ha⟩, b', hb', huses'.trans huses⟩
  greatest s e he a ha b hb := by
    obtain ⟨g, hmem, ha⟩ := mem_flatMap.1 ha
    have hj : g.2.1 ∈ groups.map fun g => g.2.1 := mem_map.2 ⟨g, hmem, rfl⟩
    have hsome : (g.2.1.lookup s).isSome := by
      rw [lookup_isSome]
      apply (h.common s).1 _ _ hj
      rw [← lookup_isSome, he]
      rfl
    obtain ⟨c, hc⟩ := isSome_iff_exists.1 hsome
    exact ((hg g hmem).2.greatest s c hc a ha b hb).trans (h.greatest s e he _ hj c hc)
  kind s e he := by
    obtain ⟨j, hj, b, hb, hclass⟩ := h.kind s e he
    obtain ⟨g, hmem, rfl⟩ := mem_map.1 hj
    obtain ⟨a, ha, b', hb', hclass'⟩ := (hg g hmem).2.kind s b hb
    exact ⟨a, mem_flatMap.2 ⟨g, hmem, ha⟩, b', hb', hclass'.trans hclass⟩

theorem disagree_groups : Disagree (groups.flatMap fst) ↔
    (∃ g ∈ groups, Disagree g.1) ∨ Disagree (groups.map fun g => g.2.1) := by
  have hin : ∀ {g}, g ∈ groups → ∀ {a}, a ∈ g.1 → a ∈ groups.flatMap fst :=
    fun hmem _ ha => mem_flatMap.2 ⟨_, hmem, ha⟩
  constructor
  · rintro ⟨s, a, ha, a', ha', b, b', hb, hb', hagree, hne⟩
    have hs := hf.bound_of_ne ha ha' hb hb' hne
    have hclass := hf.class_eq hs ha hb
    have hclass' := hf.class_eq hs ha' hb'
    obtain ⟨g, hmem, ha⟩ := mem_flatMap.1 ha
    obtain ⟨g', hmem', ha'⟩ := mem_flatMap.1 ha'
    obtain ⟨e, he, hkind⟩ := bound_lookup hf hg hs hmem
    obtain ⟨e', he', -⟩ := bound_lookup hf hg hs hmem'
    unfold must_agree at hagree
    -- one of the two is not the count of its group, or those counts differ
    by_cases heq : e.uses = b.uses
    · by_cases heq' : e'.uses = b'.uses
      · refine .inr ⟨s, _, mem_map.2 ⟨g, hmem, rfl⟩, _, mem_map.2 ⟨g', hmem', rfl⟩,
          e, e', he, he', ?_, by omega⟩
        unfold must_agree
        rwa [hkind, ← hclass]
      · obtain ⟨c, hc, d, hd, huses⟩ := (hg g' hmem').2.attained s e' he'
        refine .inl ⟨g', hmem', s, a', ha', c, hc, b', d, hb', hd, ?_, by omega⟩
        unfold must_agree
        rwa [hclass', ← hclass]
    · obtain ⟨c, hc, d, hd, huses⟩ := (hg g hmem).2.attained s e he
      exact .inl ⟨g, hmem, s, a, ha, c, hc, b, d, hb, hd, hagree, by omega⟩
  · rintro (⟨g, hmem, h⟩ | ⟨s, j, hj, j', hj', e, e', he, he', hagree, hne⟩)
    · exact h.mono fun a ha => hin hmem ha
    · have hs := (forked_groups hf hg).bound_of_ne hj hj' he he' hne
      have hclass := (forked_groups hf hg).class_eq hs hj he
      obtain ⟨g, hmem, rfl⟩ := mem_map.1 hj
      obtain ⟨g', hmem', rfl⟩ := mem_map.1 hj'
      obtain ⟨a, ha, b, hb, huses⟩ := (hg g hmem).2.attained s e he
      obtain ⟨a', ha', b', hb', huses'⟩ := (hg g' hmem').2.attained s e' he'
      refine ⟨s, a, hin hmem ha, a', hin hmem' ha', b, b', hb, hb', ?_, by omega⟩
      unfold must_agree at *
      rwa [hf.class_eq hs (hin hmem ha) hb, ← hclass]

end

/-- Any grouping gives the join of its arms, and reports on a disagreement among them. -/
theorem Grouped.spec {reported : Bool} (h : Grouped arms joined reported)
    (hf : Forked bound cls arms) : JoinOf arms joined ∧ (reported = true ↔ Disagree arms) := by
  induction h with
  | arm a =>
    exact ⟨joinOf_single (hf.map a (.head _)),
      iff_of_false Bool.false_ne_true (not_disagree_single a)⟩
  | @group groups hne hgroups ih =>
    have hspec : ∀ g ∈ groups, JoinOf g.1 g.2.1 ∧ (g.2.2 = true ↔ Disagree g.1) := fun g hmem =>
      ih g hmem (hf.sublist (List.sublist_flatten_of_mem (mem_map.2 ⟨g, hmem, rfl⟩)))
    have hg : ∀ g ∈ groups, g.1 ≠ [] ∧ JoinOf g.1 g.2.1 := fun g hmem =>
      ⟨(hgroups g hmem).ne_nil, (hspec g hmem).1⟩
    obtain ⟨hjoin, hdis⟩ := merge_branches_spec (by simpa using hne) (forked_groups hf hg)
    refine ⟨joinOf_groups hg hjoin, ?_⟩
    rw [disagree_groups hf hg, hdis, Bool.or_eq_true, List.any_eq_true, Bool.not_eq_true',
      List.isEmpty_eq_false_iff]
    apply or_congr_left
    exact exists_congr fun g => and_congr_right fun hmem => (hspec g hmem).2

/-! ## The order of the arms -/

/-- The use count of a symbol of the scope. -/
def usesOf (scope : Scope) (s : Symbol) : Option Nat := (scope.lookup s).map (·.uses)

theorem JoinOf.usesOf_iff (h : JoinOf arms joined) (s : Symbol) (n : Nat) :
    usesOf joined s = some n ↔ (∀ a ∈ arms, s ∈ keys a) ∧
      IsGreatest {m | ∃ a ∈ arms, usesOf a s = some m} n := by
  unfold usesOf
  have hmax : ∀ e, joined.lookup s = some e →
      IsGreatest {m | ∃ a ∈ arms, (a.lookup s).map (·.uses) = some m} e.uses := by
    intro e he
    obtain ⟨a, ha, b, hb, huses⟩ := h.attained s e he
    refine ⟨⟨a, ha, by rw [hb, map_some, huses]⟩, ?_⟩
    rintro m ⟨a', ha', hm⟩
    obtain ⟨b', hb', rfl⟩ := map_eq_some_iff.1 hm
    exact h.greatest s e he a' ha' b' hb'
  rw [← h.common, ← lookup_isSome]
  constructor
  · intro hn
    obtain ⟨e, he, rfl⟩ := map_eq_some_iff.1 hn
    exact ⟨by rw [he]; rfl, hmax e he⟩
  · rintro ⟨hsome, hn⟩
    obtain ⟨e, he⟩ := isSome_iff_exists.1 hsome
    rw [he, map_some, (hmax e he).unique hn]

theorem merge_uses (hf : Forked bound cls arms) :
    ((merge_branches arms).2 ≠ [] ↔ Disagree arms) ∧ ∀ s n,
      usesOf (merge_branches arms).1 s = some n ↔ (∀ a ∈ arms, s ∈ keys a) ∧
        IsGreatest {m | ∃ a ∈ arms, usesOf a s = some m} n := by
  by_cases hne : arms = []
  · subst hne
    simp [merge_branches, Disagree, usesOf, IsGreatest]
  · obtain ⟨hjoin, hdis⟩ := merge_branches_spec hne hf
    exact ⟨hdis.symm, hjoin.usesOf_iff⟩

/-- The merge of the arms of a fork has exactly their common symbols, each with its greatest
count, and reports exactly if two arms disagree; in any other order of the arms, and in any
grouping of them, the counts and whether there is a report are the same. -/
theorem merge_is_a_symmetric_join (hf : Forked bound cls arms) :
    ((merge_branches arms).2 ≠ [] ↔ Disagree arms) ∧
      (∀ s n, usesOf (merge_branches arms).1 s = some n ↔ (∀ a ∈ arms, s ∈ Assoc.keys a) ∧
        IsGreatest {m | ∃ a ∈ arms, usesOf a s = some m} n) ∧
      ∀ arms', arms'.Perm arms →
        ((merge_branches arms').2 ≠ [] ↔ Disagree arms) ∧
        usesOf (merge_branches arms').1 = usesOf (merge_branches arms).1 ∧
        ∀ joined reported, Grouped arms' joined reported →
          (reported = true ↔ Disagree arms) ∧ usesOf joined = usesOf (merge_branches arms).1 := by
  obtain ⟨hdis, huses⟩ := merge_uses hf
  refine ⟨hdis, huses, ?_⟩
  intro arms' hp
  have hsame : Disagree arms' ↔ Disagree arms :=
    ⟨fun h => h.mono fun a => hp.mem_iff.1, fun h => h.mono fun a => hp.mem_iff.2⟩
  have hother : ∀ {joined}, (∀ s n, usesOf joined s = some n ↔ (∀ a ∈ arms', s ∈ Assoc.keys a) ∧
      IsGreatest {m | ∃ a ∈ arms', usesOf a s = some m} n) →
      usesOf joined = usesOf (merge_branches arms).1 := by
    intro joined hj
    funext s
    apply Option.ext
    intro n
    simp only [hj, huses, hp.mem_iff]
  obtain ⟨hdis', huses'⟩ := merge_uses (hf.perm hp)
  refine ⟨hdis'.trans hsame, hother huses', ?_⟩
  intro joined reported h
  obtain ⟨hj, hr⟩ := h.spec (hf.perm hp)
  exact ⟨hr.trans hsame, hother hj.usesOf_iff⟩

/-- A linear binding that one arm uses and another does not, and a symbol of one arm. -/
def usedOnce : Scope := [(7, ⟨.Linear, 1, ⟨⟨1, Nat.zero_lt_one⟩, 0, 1, Span.one_fits⟩⟩),
  (99, ⟨.Linear, 1, ⟨⟨1, by decide⟩, 4, 1, by decide⟩⟩)]

def unused : Scope := [(7, ⟨.Linear, 0, ⟨⟨1, Nat.zero_lt_one⟩, 0, 1, Span.one_fits⟩⟩)]

theorem merge_of_two_arms : (merge_branches [usedOnce, unused]).2 ≠ [] ↔
    Disagree [usedOnce, unused] := by
  have hf : Forked (· = 7) (fun _ => .Linear) [usedOnce, unused] := {
    map := by decide
    everywhere := by
      rintro s rfl a ha
      rcases List.mem_cons.1 ha with rfl | ha
      · exact ⟨_, rfl, rfl⟩
      · rw [List.mem_singleton.1 ha]
        exact ⟨_, rfl, rfl⟩
    once := by
      intro s hs
      simp [Assoc.keys, usedOnce, unused, hs] }
  exact (merge_is_a_symmetric_join hf).1

end paideia_as_elaborator.branch_merge
