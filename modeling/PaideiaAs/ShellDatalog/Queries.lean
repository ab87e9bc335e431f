-- Conjunctive queries: the join over the goals gives every substitution that
-- makes each goal a tuple of the database, each once, in whatever order the
-- goals stand.
import PaideiaAs.ShellDatalog.Instances

namespace paideia_as_shell_datalog

open List (Forall₂ forall₂_cons mem_append mem_cons mem_singleton not_mem_nil)

/-! ## What unification extends -/

/-- `b'` keeps what `b` binds, binds nothing else outside the terms, and gives
the terms the values of the tuple. -/
structure ExtendsBy (terms : List Term) (t : Tuple) (b b' : Binding) : Prop where
  keeps : ∀ x v, b x = some v → b' x = some v
  outside : ∀ x, Term.Var x ∉ terms → b' x = b x
  ground : Forall₂ (fun u v => ground_term b' u = some v) terms t

theorem unify_terms_iff (terms : List Term) (t : Tuple) (b b' : Binding)
    (hlen : terms.length = t.length) :
    unify_terms terms t b = some b' ↔ ExtendsBy terms t b b' := by
  induction terms generalizing t b with
  | nil =>
    obtain rfl : t = [] := List.length_eq_zero_iff.mp hlen.symm
    refine ⟨?_, fun h => ?_⟩
    · intro h
      cases h
      exact ⟨fun _ _ h => h, fun _ _ => rfl, .nil⟩
    · show some b = some b'
      rw [funext fun x => h.outside x not_mem_nil]
  | cons u terms ih =>
    obtain ⟨v, t, rfl⟩ : ∃ v t', t = v :: t' := List.exists_of_length_succ t hlen.symm
    have hlen' : terms.length = t.length := Nat.succ.inj hlen
    cases u with
    | Bound x =>
      refine ⟨fun h => (by cases h), fun h => ?_⟩
      obtain ⟨hx, -⟩ := forall₂_cons.mp h.ground
      cases hx
    | Const c =>
      unfold unify_terms
      split
      · rename_i hcv
        refine ⟨fun h => (by cases h), fun h => ?_⟩
        obtain ⟨hc, -⟩ := forall₂_cons.mp h.ground
        exact absurd (Option.some.inj hc) hcv
      · rename_i hcv
        rw [ih t b hlen']
        refine ⟨fun h => ⟨h.keeps, ?_, ?_⟩, fun h => ⟨h.keeps, ?_, ?_⟩⟩
        · intro x hx
          exact h.outside x fun hm => hx (.tail _ hm)
        · exact .cons (congrArg some (not_not.mp hcv)) h.ground
        · intro x hx
          refine h.outside x ?_
          simpa using hx
        · exact (forall₂_cons.mp h.ground).2
    | Var x =>
      unfold unify_terms
      split
      · rename_i w hw
        split
        · rename_i hwv
          refine ⟨nofun, fun h => ?_⟩
          obtain ⟨hx, -⟩ := forall₂_cons.mp h.ground
          exact absurd (Option.some.inj ((h.keeps x w hw).symm.trans hx)) hwv
        · rename_i hwv
          obtain rfl : w = v := not_not.mp hwv
          rw [ih t b hlen']
          refine ⟨fun h => ⟨h.keeps, ?_, ?_⟩, fun h => ⟨h.keeps, ?_, ?_⟩⟩
          · intro y hy
            exact h.outside y fun hm => hy (.tail _ hm)
          · exact .cons (h.keeps x w hw) h.ground
          · intro y hy
            by_cases hyx : y = x
            · rw [hyx, hw]
              exact h.keeps x w hw
            · refine h.outside y ?_
              simpa [hyx] using hy
          · exact (forall₂_cons.mp h.ground).2
      · rename_i hnone
        rw [ih t _ hlen']
        refine ⟨fun h => ?_, fun h => ?_⟩
        · have hx : b' x = some v := h.keeps x v (Function.update_self ..)
          refine ⟨?_, ?_, .cons hx h.ground⟩
          · intro y w hy
            refine h.keeps y w ?_
            rw [Function.update_of_ne]
            · exact hy
            · rintro rfl
              rw [hnone] at hy
              cases hy
          · intro y hy
            rw [mem_cons, not_or] at hy
            rw [h.outside y hy.2, Function.update_of_ne]
            rintro rfl
            exact hy.1 rfl
        · obtain ⟨hx, hrest⟩ := forall₂_cons.mp h.ground
          refine ⟨?_, ?_, hrest⟩
          · intro y w hy
            by_cases hyx : y = x
            · rw [hyx, Function.update_self] at hy
              rw [hyx, ← hy]
              exact hx
            · rw [Function.update_of_ne hyx] at hy
              exact h.keeps y w hy
          · intro y hy
            by_cases hyx : y = x
            · rw [hyx, Function.update_self]
              exact hx
            · rw [Function.update_of_ne hyx]
              refine h.outside y ?_
              simpa [hyx] using hy

variable {a : Atom} {b : Binding} {t : Tuple} {db : Database}

theorem ground_atom_eq_some :
    ground_atom a b = some t ↔ Forall₂ (fun u v => ground_term b u = some v) a.terms t :=
  mapM_eq_some

theorem unify_atom_iff {b' : Binding} : unify_atom a t b = some b' ↔ ExtendsBy a.terms t b b' := by
  unfold unify_atom
  split
  · rename_i hlen
    exact ⟨nofun, fun h => absurd h.ground.length_eq hlen⟩
  · rename_i hlen
    exact unify_terms_iff a.terms t b b' (not_not.mp hlen)

/-! ## Answers -/

/-- A substitution over the variables of the goals under which every goal is a
tuple of the database. -/
structure Answers (db : Database) (goals : List Atom) (b : Binding) : Prop where
  domain : ∀ x, (b x).isSome ↔ ∃ a ∈ goals, x ∈ a.vars
  holds : ∀ a ∈ goals, ∃ t, ground_atom a b = some t ∧ (a.predicate, t) ∈ db

theorem answers_perm {goals goals' : List Atom} (h : goals.Perm goals') :
    Answers db goals b ↔ Answers db goals' b := by
  refine ⟨fun ha => ⟨?_, ?_⟩, fun ha => ⟨?_, ?_⟩⟩
  · intro x
    simp only [ha.domain, h.mem_iff]
  · intro a hm
    exact ha.holds a (h.mem_iff.mpr hm)
  · intro x
    simp only [ha.domain, h.mem_iff]
  · intro a hm
    exact ha.holds a (h.mem_iff.mp hm)

theorem answers_nil : Answers db [] b ↔ b = Binding.new := by
  refine ⟨fun h => ?_, ?_⟩
  · funext x
    have hx := h.domain x
    simp only [not_mem_nil, false_and, exists_false, iff_false] at hx
    exact Option.not_isSome_iff_eq_none.mp hx
  · rintro rfl
    exact ⟨fun x => by simp [Binding.new], fun a ha => absurd ha not_mem_nil⟩

/-- Only the variables of the atom matter for its tuple. -/
theorem ground_atom_congr {b' : Binding} (h : ∀ x ∈ a.vars, b x = b' x) :
    ground_atom a b = ground_atom a b' := by
  unfold ground_atom
  refine mapM_congr ?_
  intro u hu
  cases u with
  | Const v => rfl
  | Var x => exact h x (Atom.mem_vars.mpr hu)
  | Bound x => rfl

theorem bound_of_ground (h : ground_atom a b = some t)
    {x : String} (hx : x ∈ a.vars) : (b x).isSome := by
  have hall := ground_atom_eq_some.mp h
  clear h
  have hterm : Term.Var x ∈ a.terms := Atom.mem_vars.mp hx
  generalize a.terms = terms at hall hterm
  induction hall with
  | nil => cases hterm
  | @cons u v terms t hu _ ih =>
    rcases mem_cons.mp hterm with rfl | hm
    · exact Option.isSome_iff_exists.mpr ⟨v, hu⟩
    · exact ih hm

theorem ground_atom_length (h : ground_atom a b = some t) : t.length = a.arity :=
  (ground_atom_eq_some.mp h).length_eq.symm

section

variable {db : Database} {goals : List Atom} {a : Atom} {b b' : Binding}

theorem Answers.extend (h : Answers db goals b) (ht : (a.predicate, t) ∈ db)
    (hu : unify_atom a t b = some b') : Answers db (goals ++ [a]) b' := by
  have hext := unify_atom_iff.mp hu
  have hground : ground_atom a b' = some t := ground_atom_eq_some.mpr hext.ground
  refine ⟨?_, ?_⟩
  · intro x
    simp only [mem_append, mem_singleton, or_and_right, exists_or, exists_eq_left]
    rw [← h.domain]
    by_cases hx : x ∈ a.vars
    · exact ⟨fun _ => .inr hx, fun _ => bound_of_ground hground hx⟩
    · rw [hext.outside x fun hm => hx (Atom.mem_vars.mpr hm)]
      simp [hx]
  · intro a' ha'
    rcases mem_append.mp ha' with hm | hm
    · obtain ⟨t', ht', hdb⟩ := h.holds a' hm
      refine ⟨t', ?_, hdb⟩
      rw [← ht']
      refine ground_atom_congr ?_
      intro x hx
      obtain ⟨v, hv⟩ := Option.isSome_iff_exists.mp ((h.domain x).mpr ⟨a', hm, hx⟩)
      rw [hv, hext.keeps x v hv]
    · obtain rfl := mem_singleton.mp hm
      exact ⟨t, hground, ht⟩

/-- The answer of the goals that an answer with one more goal extends. -/
def restricted (goals : List Atom) (b : Binding) : Binding := fun x =>
  if x ∈ goals.flatMap Atom.vars then b x else none

theorem restricted_of_mem {x : String} (ha : a ∈ goals) (hx : x ∈ a.vars) :
    restricted goals b x = b x := if_pos (List.mem_flatMap.mpr ⟨a, ha, hx⟩)

theorem restricted_of_not {x : String} (hx : ¬ ∃ a ∈ goals, x ∈ a.vars) :
    restricted goals b x = none := if_neg fun hm => hx (List.mem_flatMap.mp hm)

theorem Answers.restrict (h : Answers db (goals ++ [a]) b) :
    Answers db goals (restricted goals b) := by
  refine ⟨?_, ?_⟩
  · intro x
    by_cases hx : ∃ a ∈ goals, x ∈ a.vars
    · obtain ⟨a', ha', hx'⟩ := hx
      rw [restricted_of_mem ha' hx', h.domain]
      refine ⟨fun _ => ⟨a', ha', hx'⟩, fun _ => ⟨a', List.mem_append_left _ ha', hx'⟩⟩
    · rw [restricted_of_not hx]
      simp [hx]
  · intro a' ha'
    obtain ⟨t, ht, hdb⟩ := h.holds a' (List.mem_append_left _ ha')
    refine ⟨t, ?_, hdb⟩
    rw [← ht]
    exact ground_atom_congr fun x hx => restricted_of_mem ha' hx

theorem Answers.unify_restricted (h : Answers db (goals ++ [a]) b) :
    ∃ t, (a.predicate, t) ∈ db ∧ unify_atom a t (restricted goals b) = some b := by
  obtain ⟨t, ht, hdb⟩ := h.holds a (List.mem_append_right _ (List.mem_singleton_self a))
  refine ⟨t, hdb, unify_atom_iff.mpr ⟨?_, ?_, ground_atom_eq_some.mp ht⟩⟩
  · intro x v hx
    by_cases hm : ∃ a ∈ goals, x ∈ a.vars
    · obtain ⟨a', ha', hx'⟩ := hm
      rwa [restricted_of_mem ha' hx'] at hx
    · rw [restricted_of_not hm] at hx
      cases hx
  · intro x hx
    by_cases hm : ∃ a ∈ goals, x ∈ a.vars
    · obtain ⟨a', ha', hx'⟩ := hm
      rw [restricted_of_mem ha' hx']
    · rw [restricted_of_not hm, ← Option.not_isSome_iff_eq_none, h.domain]
      rintro ⟨a', ha', hx'⟩
      rcases mem_append.mp ha' with h' | h'
      · exact hm ⟨a', h', hx'⟩
      · obtain rfl := mem_singleton.mp h'
        exact hx (Atom.mem_vars.mp hx')

theorem Answers.unique {t' : Tuple} {c : Binding} (h : Answers db goals b)
    (h' : Answers db goals b') (hu : unify_atom a t b = some c)
    (hu' : unify_atom a t' b' = some c) : b = b' := by
  funext x
  by_cases hx : (b x).isSome
  · obtain ⟨v, hv⟩ := Option.isSome_iff_exists.mp hx
    obtain ⟨w, hw⟩ := Option.isSome_iff_exists.mp ((h'.domain x).mpr ((h.domain x).mp hx))
    have hc := (unify_atom_iff.mp hu).keeps x v hv
    rw [(unify_atom_iff.mp hu').keeps x w hw] at hc
    rw [hv, hw, hc]
  · have hx' : ¬ (b' x).isSome := fun hs => hx ((h.domain x).mpr ((h'.domain x).mp hs))
    rw [Option.not_isSome_iff_eq_none] at hx hx'
    rw [hx, hx']

/-- All the answers of the goals, each once. -/
structure AllAnswers (db : Database) (goals : List Atom) (bs : List Binding) : Prop where
  nodup : bs.Nodup
  mem : ∀ b, b ∈ bs ↔ Answers db goals b

section

variable (hash : HashOrder Tuple)

include hash

theorem get_nodup (hdb : db.Nodup) (predicate : String) (arity : Nat) :
    (db.get hash predicate arity).Nodup := by
  unfold Database.get
  rw [(hash.perm _).nodup_iff]
  refine List.Nodup.map_on ?_ (hdb.filter _)
  intro f hf g hg he
  have hpf := (of_decide_eq_true (List.mem_filter.mp hf).2).1
  have hpg := (of_decide_eq_true (List.mem_filter.mp hg).2).1
  exact Prod.ext (hpf.trans hpg.symm) he

theorem AllAnswers.extend (hdb : db.Nodup) {bs : List Binding}
    (h : AllAnswers db goals bs) : AllAnswers db (goals ++ [a]) (extend_with_db hash a db bs) := by
  refine ⟨?_, ?_⟩
  · unfold extend_with_db
    refine List.nodup_flatMap.mpr ⟨?_, ?_⟩
    · intro b _
      refine (get_nodup hash hdb _ _).filterMap ?_
      intro t t' c ht ht'
      have hg := ground_atom_eq_some.mpr (unify_atom_iff.mp ht).ground
      rw [ground_atom_eq_some.mpr (unify_atom_iff.mp ht').ground] at hg
      exact (Option.some.inj hg).symm
    · refine h.nodup.imp_of_mem ?_
      intro b b' hb hb' hne c hc hc'
      obtain ⟨t, -, ht⟩ := List.mem_filterMap.mp hc
      obtain ⟨t', -, ht'⟩ := List.mem_filterMap.mp hc'
      exact hne (((h.mem b).mp hb).unique ((h.mem b').mp hb') ht ht')
  · intro c
    rw [mem_extend]
    refine ⟨?_, ?_⟩
    · rintro ⟨b, hb, t, ht, -, hu⟩
      exact ((h.mem b).mp hb).extend ht hu
    · intro hc
      obtain ⟨t, ht, hu⟩ := hc.unify_restricted
      refine ⟨_, (h.mem _).mpr hc.restrict, t, ht, ?_, hu⟩
      exact ground_atom_length (ground_atom_eq_some.mpr (unify_atom_iff.mp hu).ground)

/-- Without a binding there is nothing to extend. -/
theorem answer_goals_nil (db : Database) (goals : List Atom) :
    answer_goals hash db goals [] = [] := by
  cases goals <;> rfl

theorem AllAnswers.join (hdb : db.Nodup) (rest : List Atom)
    {bs : List Binding} (h : AllAnswers db goals bs) :
    AllAnswers db (goals ++ rest) (answer_goals hash db rest bs) := by
  induction rest generalizing goals bs with
  | nil =>
    rw [List.append_nil]
    exact h
  | cons a rest ih =>
    have hnext : AllAnswers db (goals ++ [a]) (extend_with_db hash a db bs) := h.extend hash hdb
    have hrest := ih hnext
    rw [List.append_assoc, List.singleton_append] at hrest
    unfold answer_goals
    simp only
    split
    · rename_i hempty
      rw [List.isEmpty_iff.mp hempty, answer_goals_nil] at hrest
      rw [List.isEmpty_iff.mp hempty]
      exact hrest
    · exact hrest

end

end

/-! ## The query -/

/-- A query is refused for its pipeline interpolations only. -/
theorem query_ok_iff (hash : HashOrder Tuple) (db : Database) (goals : List Atom) :
    (∃ bs, query hash db ⟨goals⟩ = .ok bs) ↔ ∀ a ∈ goals, ∀ x, Term.Bound x ∉ a.terms := by
  have hcheck : goals.forM reject_bound = .ok () ↔ ∀ a ∈ goals, ∀ x, Term.Bound x ∉ a.terms := by
    simp only [forM_reject_bound, reject_bound_ok]
  rw [← hcheck]
  unfold query
  cases goals.forM reject_bound with
  | error e => simp [bind, Except.bind]
  | ok u =>
    simp only [bind, Except.bind]
    split <;> simp

theorem query_answers {hash : HashOrder Tuple} (hdb : db.Nodup)
    {goals : List Atom} {bs : List Binding} (h : query hash db ⟨goals⟩ = .ok bs) :
    AllAnswers db goals bs := by
  have hstart : AllAnswers db [] [Binding.new] := by
    refine ⟨List.nodup_singleton _, fun b => ?_⟩
    rw [mem_singleton, answers_nil]
  unfold query at h
  cases hc : goals.forM reject_bound with
  | error e =>
    rw [hc] at h
    cases h
  | ok u =>
    rw [hc] at h
    simp only [bind, Except.bind] at h
    split at h
    · rename_i hempty
      cases h
      rw [List.isEmpty_iff.mp hempty]
      exact hstart
    · cases h
      exact hstart.join hash hdb goals

/-- A query gives every substitution over the variables of its goals that makes
each goal a tuple of the database, each once, and the order of the goals and of
the tables does not matter. -/
theorem query_exact (hash hash' : HashOrder Tuple) (db : Database) (hdb : db.Nodup)
    (goals : List Atom) :
    ((∃ bs, query hash db ⟨goals⟩ = .ok bs) ↔ ∀ a ∈ goals, ∀ x, Term.Bound x ∉ a.terms) ∧
    ∀ bs, query hash db ⟨goals⟩ = .ok bs →
      (bs.Nodup ∧ ∀ b, b ∈ bs ↔ Answers db goals b) ∧
      ∀ goals', goals.Perm goals' → ∃ bs', query hash' db ⟨goals'⟩ = .ok bs' ∧ bs.Perm bs' := by
  refine ⟨query_ok_iff hash db goals, ?_⟩
  intro bs h
  have hall := query_answers hdb h
  refine ⟨⟨hall.nodup, hall.mem⟩, ?_⟩
  intro goals' hp
  have hfree := (query_ok_iff hash db goals).mp ⟨bs, h⟩
  obtain ⟨bs', h'⟩ := (query_ok_iff hash' db goals').mpr fun a ha => hfree a (hp.mem_iff.mpr ha)
  have hall' := query_answers hdb h'
  refine ⟨bs', h', ?_⟩
  refine (List.perm_ext_iff_of_nodup hall.nodup hall'.nodup).mpr ?_
  intro b
  rw [hall.mem, hall'.mem, answers_perm hp]

def loopAndBack : Database :=
  [("edge", [.Num 1, .Num 1]), ("edge", [.Num 1, .Num 2]), ("edge", [.Num 2, .Num 1])]

/-- `edge(x, y), edge(y, x)`. -/
def bothWays : List Atom := [⟨"edge", [.Var "x", .Var "y"]⟩, ⟨"edge", [.Var "y", .Var "x"]⟩]

theorem both_ways_exact : ∃ bs, query (HashOrder.plain _) loopAndBack ⟨bothWays⟩ = .ok bs ∧
    bs.Nodup ∧ ∀ b, b ∈ bs ↔ Answers loopAndBack bothWays b := by
  obtain ⟨hok, hall⟩ := query_exact (HashOrder.plain _) (HashOrder.plain _) loopAndBack
    (by decide) bothWays
  obtain ⟨bs, hbs⟩ := hok.mpr (by simp [bothWays])
  exact ⟨bs, hbs, (hall bs hbs).1⟩

end paideia_as_shell_datalog
