-- How far aggregation depends on the order of the answers. The groups never
-- do, nor do Count, Min and Max over discrete values. Sum and Avg saturate, so
-- their order matters where a running sum leaves the range of an i64; and of
-- several values that are not numbers the error names the first.
import PaideiaAs.ShellDatalog.Aggregation
import PaideiaAs.ShellDatalog.Instances
import PaideiaAs.Lib.Saturating

open Assoc

namespace paideia_as_shell_datalog

/-! ## The groups -/

section

variable {target : String} {group_by : List String} {subs subs' : List Binding} {key : Tuple}

/-- The values of a group, in the order of the substitutions. -/
def column (target : String) (group_by : List String) (subs : List Binding) (key : Tuple) :
    List Value :=
  ((subs.filterMap (observe target group_by)).filter fun o => o.1 = key).map Prod.snd

theorem column_perm (h : subs.Perm subs') :
    (column target group_by subs key).Perm (column target group_by subs' key) :=
  ((h.filterMap _).filter _).map _

theorem mem_column {v : Value} : v ∈ column target group_by subs key ↔
    ∃ sub ∈ subs, observe target group_by sub = some (key, v) := by
  unfold column
  simp only [List.mem_map, List.mem_filter, List.mem_filterMap, decide_eq_true_eq]
  refine ⟨?_, fun ⟨sub, hs, ho⟩ => ⟨(key, v), ⟨⟨sub, hs, ho⟩, rfl⟩, rfl⟩⟩
  rintro ⟨o, ⟨⟨sub, hs, ho⟩, rfl⟩, rfl⟩
  exact ⟨sub, hs, ho⟩

theorem column_value {v : Value} (h : v ∈ column target group_by subs key) :
    ∃ sub ∈ subs, sub target = some v := by
  obtain ⟨sub, hs, ho⟩ := mem_column.mp h
  refine ⟨sub, hs, ?_⟩
  unfold observe at ho
  simp only [Option.bind_eq_bind, Option.bind_eq_some_iff, Option.pure_def, Option.some.injEq,
    Prod.mk.injEq] at ho
  obtain ⟨-, -, w, hw, -, rfl⟩ := ho
  exact hw

/-- The map holds each group that has a value, with its values in order. -/
structure Partitions (groups : Groups) (os : List (Tuple × Value)) : Prop where
  nodup : (keys groups).Nodup
  found : ∀ key, entry groups key =
    if (os.filter fun o => o.1 = key).map Prod.snd = [] then none
    else some ((os.filter fun o => o.1 = key).map Prod.snd)

theorem Partitions.push {groups : Groups} {os : List (Tuple × Value)} (h : Partitions groups os)
    (o : Tuple × Value) : Partitions (groups.push o.1 o.2) (os ++ [o]) := by
  refine ⟨?_, ?_⟩
  · unfold Groups.push Assoc.insert keys
    rw [List.map_cons, List.nodup_cons]
    refine ⟨?_, ?_⟩
    · rw [List.mem_map]
      rintro ⟨e, he, hek⟩
      simp [hek] at he
    · exact h.nodup.sublist (List.filter_sublist.map _)
  · intro k
    unfold Groups.push
    rw [entry, lookup_insert, ← entry, h.found k, h.found o.1]
    simp only [List.filter_append, List.map_append]
    by_cases hk : k = o.1
    · subst hk
      by_cases hnil : (os.filter fun p => p.1 = o.1).map Prod.snd = []
      · simp [hnil]
      · simp [hnil]
    · have hno : ([o].filter fun p => p.1 = k) = [] := by
        rw [List.filter_singleton, decide_eq_false fun e => hk e.symm]
        rfl
      rw [hno, if_neg hk, List.map_nil, List.append_nil]

theorem partition_spec (target : String) (group_by : List String) (subs : List Binding) :
    Partitions (partition target group_by subs) (subs.filterMap (observe target group_by)) := by
  have hfold : ∀ (l : List Binding) (groups : Groups) (os : List (Tuple × Value)),
      Partitions groups os → Partitions (l.foldl (fun groups sub =>
        (observe target group_by sub).elim groups fun o => Groups.push groups o.1 o.2) groups)
        (os ++ l.filterMap (observe target group_by)) := by
    intro l
    induction l with
    | nil =>
      intro groups os h
      simpa using h
    | cons sub l ih =>
      intro groups os h
      rw [List.foldl_cons]
      rcases ho : observe target group_by sub with _ | o
      · rw [List.filterMap_cons_none ho]
        exact ih groups os h
      · rw [List.filterMap_cons_some ho]
        have hnext := ih _ _ (h.push o)
        rwa [List.append_assoc, List.singleton_append] at hnext
  have hstart : Partitions [] ([] : List (Tuple × Value)) := ⟨List.nodup_nil, fun _ => rfl⟩
  have hpartition : partition target group_by subs = subs.foldl (fun groups sub =>
      (observe target group_by sub).elim groups fun o => Groups.push groups o.1 o.2) [] := by
    unfold partition
    congr
    funext groups sub
    rcases observe target group_by sub with _ | o <;> rfl
  exact hpartition ▸ hfold subs [] [] hstart

theorem partition_entry : entry (partition target group_by subs) key =
    if column target group_by subs key = [] then none
    else some (column target group_by subs key) :=
  (partition_spec target group_by subs).found key

/-- Without variables to group by, there is one group. -/
theorem column_ungrouped (hk : key ≠ []) : column target [] subs key = [] := by
  rw [List.eq_nil_iff_forall_not_mem]
  intro v hv
  obtain ⟨sub, -, ho⟩ := mem_column.mp hv
  unfold observe at ho
  simp only [List.mapM_nil, Option.pure_def, Option.bind_eq_bind, Option.bind_some,
    Option.bind_eq_some_iff, Option.some.injEq, Prod.mk.injEq] at ho
  obtain ⟨w, -, hkey, -⟩ := ho
  exact hk hkey.symm

end

section

variable {agg : Aggregate} {groups : Groups}

theorem reduce_groups_cases (agg : Aggregate) (groups : Groups) :
    (∃ e ∈ groups, ∃ err, reduce_group agg e.2 = .error err ∧
      reduce_groups agg groups = .error err) ∨
    ∃ out, reduce_groups agg groups = .ok out ∧ (∀ e ∈ groups, ∃ row,
      reduce_group agg e.2 = .ok row) ∧
      ∀ key, entry out key = (entry groups key).bind fun vs => (reduce_group agg vs).toOption := by
  unfold reduce_groups
  induction groups with
  | nil => exact .inr ⟨[], rfl, by simp, fun _ => rfl⟩
  | cons e groups ih =>
    rw [List.mapM_cons]
    rcases hrow : reduce_group agg e.2 with err | row
    · exact .inl ⟨e, .head _, err, hrow, rfl⟩
    · rcases ih with ⟨d, hd, err, herr, hrun⟩ | ⟨out, hrun, hall, hlook⟩
      · refine .inl ⟨d, .tail _ hd, err, herr, ?_⟩
        rw [hrun]
        rfl
      · refine .inr ⟨(e.1, row) :: out, ?_, ?_, ?_⟩
        · rw [hrun]
          rfl
        · intro d hd
          rcases List.mem_cons.mp hd with rfl | hd
          · exact ⟨row, hrow⟩
          · exact hall d hd
        · intro key
          obtain ⟨k, vs⟩ := e
          rw [entry, entry, lookup_cons_ite, lookup_cons_ite, ← entry, ← entry, hlook]
          split
          · rw [Option.bind_some, hrow]
            rfl
          · rfl

variable {target : String} {group_by : List String} {subs subs' : List Binding}

/-- Every group has its row. -/
structure Grouped (agg : Aggregate) (target : String) (group_by : List String)
    (subs : List Binding) (out : List (Tuple × AggregateResult)) : Prop where
  rows : ∀ key, column target group_by subs key ≠ [] → ∃ row,
    reduce_group agg (column target group_by subs key) = .ok row ∧ entry out key = some row
  empty : ∀ key, column target group_by subs key = [] → entry out key =
    if group_by = [] ∧ key = [] then some (identity_for agg) else none

/-- Either the row of some group is an error, and so is the whole; or every
group has its row. -/
theorem evaluate_cases (hash : HashOrder (Tuple × List Value)) (agg : Aggregate) (target : String)
    (group_by : List String) (subs : List Binding) :
    (∃ key err, reduce_group agg (column target group_by subs key) = .error err ∧
      column target group_by subs key ≠ [] ∧
      evaluate hash agg target group_by subs = .error err) ∨
    ∃ out, evaluate hash agg target group_by subs = .ok out ∧
      Grouped agg target group_by subs out := by
  unfold evaluate
  simp only
  split
  · rename_i hungrouped
    obtain rfl := List.isEmpty_iff.mp hungrouped
    have hother : ∀ (row : AggregateResult) (key : Tuple), key ≠ [] →
        entry ([([], row)] : List (Tuple × AggregateResult)) key = none := by
      intro row key hk
      rw [entry, lookup_cons_ite, if_neg hk]
      rfl
    rw [partition_entry]
    by_cases hnil : column target [] subs [] = []
    · refine .inr ⟨[([], identity_for agg)], ?_, ?_, ?_⟩
      · rw [if_pos hnil]
        rfl
      · intro key hne
        by_cases hk : key = []
        · rw [hk] at hne
          exact absurd hnil hne
        · exact absurd (column_ungrouped hk) hne
      · intro key _
        by_cases hk : key = []
        · rw [if_pos ⟨rfl, hk⟩, hk]
          rfl
        · rw [if_neg fun h => hk h.2, hother _ key hk]
    · rw [if_neg hnil, Option.getD_some, if_neg (by simpa using hnil)]
      rcases hrow : reduce_group agg (column target [] subs []) with err | row
      · exact .inl ⟨[], err, hrow, hnil, rfl⟩
      · refine .inr ⟨[([], row)], rfl, ?_, ?_⟩
        · intro key hne
          by_cases hk : key = []
          · rw [hk]
            exact ⟨row, hrow, rfl⟩
          · exact absurd (column_ungrouped hk) hne
        · intro key hne
          have hk : key ≠ [] := by
            rintro rfl
            exact hnil hne
          rw [if_neg fun h => hk h.2, hother row key hk]
  · rename_i hgrouped
    have hspec := partition_spec target group_by subs
    have hperm := hash.perm (partition target group_by subs)
    have hlook : ∀ key, entry (hash.order (partition target group_by subs)) key =
        if column target group_by subs key = [] then none
        else some (column target group_by subs key) := fun key =>
      (lookup_perm hspec.nodup hperm key).trans partition_entry
    rcases reduce_groups_cases agg (hash.order (partition target group_by subs)) with
      ⟨e, he, err, herr, hrun⟩ | ⟨out, hrun, hall, hout⟩
    · have hmem : entry (partition target group_by subs) e.1 = some e.2 :=
        (lookup_iff_mem hspec.nodup).mpr (hperm.mem_iff.mp he)
      rw [partition_entry] at hmem
      split at hmem
      · cases hmem
      · rename_i hne
        rw [← Option.some.inj hmem] at herr
        exact .inl ⟨e.1, err, herr, hne, hrun⟩
    · refine .inr ⟨out, hrun, ?_, ?_⟩
      · intro key hne
        have hkey := hlook key
        rw [if_neg hne] at hkey
        obtain ⟨row, hrow⟩ := hall _ (mem_of_lookup hkey)
        refine ⟨row, hrow, ?_⟩
        rw [hout, hkey, Option.bind_some, hrow]
        rfl
      · intro key hnil
        rw [hout, hlook, if_pos hnil, if_neg]
        · rfl
        · rintro ⟨rfl, -⟩
          exact hgrouped rfl

end

/-! ## Integers and strings -/

/-- Every kind of value but a float. -/
def Discrete : Value → Prop
  | .Float _ => False
  | _ => True

def Numeric : Value → Prop
  | .Num _ | .Float _ => True
  | _ => False

section

variable {a b c : Value}

theorem compare_values_swap (ha : Discrete a) (hb : Discrete b) :
    (compare_values a b).swap = compare_values b a := by
  cases a <;> cases b <;> first
    | exact absurd ha id
    | exact absurd hb id
    | rfl
    | exact Std.OrientedOrd.eq_swap.symm

theorem eq_of_compare_values (ha : Discrete a) (hb : Discrete b)
    (h : compare_values a b = .eq) : a = b := by
  cases a <;> cases b <;> first
    | exact absurd ha id
    | exact absurd hb id
    | cases h
    | skip
  · rw [Std.LawfulEqOrd.eq_of_compare h]
  · rw [Std.LawfulEqOrd.eq_of_compare h]
  · rw [Int64.toInt_inj.mp (Std.LawfulEqOrd.eq_of_compare h)]

theorem compare_values_trans (ha : Discrete a) (hb : Discrete b) (hc : Discrete c)
    (hab : compare_values a b = .lt) (hbc : compare_values b c = .lt) :
    compare_values a c = .lt := by
  cases a <;> cases b <;> first
    | exact absurd ha id
    | exact absurd hb id
    | cases hab
    | skip
  all_goals
    cases c <;> first
      | exact absurd hc id
      | rfl
      | cases hbc
      | exact @Std.TransCmp.lt_trans String compare _ _ _ _ hab hbc
      | exact @Std.TransCmp.lt_trans Int compare _ _ _ _ hab hbc

theorem lt_linear : Extremes.Linear (fun v b => compare_values v b = .lt) Discrete where
  irrefl a ha := by
    have hswap := compare_values_swap ha ha
    rcases hcmp : compare_values a a with _ | _ | _
    · rw [hcmp] at hswap
      cases hswap
    · rfl
    · rfl
  trans a b c ha hb hc hab hbc := by
    simp only [decide_eq_true_eq] at hab hbc ⊢
    exact compare_values_trans ha hb hc hab hbc
  total a b ha hb := by
    simp only [decide_eq_true_eq]
    rcases hcmp : compare_values a b with _ | _ | _
    · exact .inl rfl
    · exact .inr (.inl (eq_of_compare_values ha hb hcmp))
    · rw [← compare_values_swap ha hb, hcmp]
      exact .inr (.inr rfl)

theorem gt_linear : Extremes.Linear (fun v b => compare_values v b = .gt) Discrete := by
  refine lt_linear.flip.congr ?_
  intro a b ha hb
  rw [← compare_values_swap ha hb, decide_eq_decide, Ordering.swap_eq_lt]

end

/-! ## Sums -/

/-- The aggregates that add the values up. -/
def Aggregate.Adds (agg : Aggregate) : Prop := agg = .Sum ∨ agg = .Avg

/-- The integers of a column. -/
def ints (values : List Value) : List Int :=
  values.filterMap fun
    | .Num n => some n.toInt
    | _ => none

abbrev min_i64 : Int := -2 ^ 63

abbrev max_i64 : Int := 2 ^ 63 - 1

/-- Either all the integers of a group are of one sign, or no running sum
leaves the range of an `i64`, neither in one order nor in the other. -/
def Steady (values values' : List Value) : Prop :=
  Saturating.OneSigned (ints values) ∨
    Saturating.Fits min_i64 max_i64 0 (ints values) ∧
      Saturating.Fits min_i64 max_i64 0 (ints values')

section

variable {agg : Aggregate} {values values' : List Value}

theorem toInt_saturating_add (a b : Int64) :
    (saturating_add a b).toInt = Saturating.clamp min_i64 max_i64 (a.toInt + b.toInt) := by
  unfold saturating_add Saturating.clamp
  rw [Int64.toInt_minValue, Int64.toInt_maxValue, Int64.toInt_ofInt_of_le]
  · omega
  · omega

section

variable (hd : ∀ v ∈ values, Discrete v)

include hd

/-- A column without floats sums up to its saturating sum, or the error names
a value that is not a number. -/
theorem sum_ints_cases (acc : Int64) :
    (∃ v ∈ values, ¬ Numeric v ∧ sum_ints acc values = .error (.NonNumericTarget v)) ∨
    (∀ v ∈ values, Numeric v) ∧ ∃ n, sum_ints acc values = .ok n ∧
      n.toInt = Saturating.sum min_i64 max_i64 acc.toInt (ints values) := by
  induction values generalizing acc with
  | nil => exact .inr ⟨nofun, acc, rfl, rfl⟩
  | cons v values ih =>
    have hrest : ∀ w ∈ values, Discrete w := fun w hw => hd w (.tail _ hw)
    cases v with
    | Num m =>
      rcases ih hrest (saturating_add acc m) with ⟨w, hw, hnum, herr⟩ | ⟨hall, n, hrun, hn⟩
      · exact .inl ⟨w, .tail _ hw, hnum, herr⟩
      · refine .inr ⟨List.forall_mem_cons.mpr ⟨trivial, hall⟩, n, hrun, ?_⟩
        rw [hn, toInt_saturating_add]
        rfl
    | Float x => exact absurd (hd _ (.head _)) id
    | Str s => exact .inl ⟨.Str s, .head _, id, rfl⟩
    | Ident s => exact .inl ⟨.Ident s, .head _, id, rfl⟩

theorem numeric_kind_discrete (hne : values ≠ []) : numeric_kind_of_first values = .Int := by
  cases values with
  | nil => exact absurd rfl hne
  | cons v values =>
    cases v with
    | Float x => exact absurd (hd _ (.head _)) id
    | Num n => rfl
    | Str s => rfl
    | Ident s => rfl

omit hd in
theorem ints_perm (hp : values.Perm values') : (ints values).Perm (ints values') :=
  hp.filterMap _

/-- Two orders of a group have one sum where it is steady. -/
theorem sum_ints_perm (hp : values.Perm values')
    (hs : Steady values values') {n n' : Int64} (hn : sum_ints 0 values = .ok n)
    (hn' : sum_ints 0 values' = .ok n') : n = n' := by
  have hd' : ∀ v ∈ values', Discrete v := fun v hv => hd v (hp.mem_iff.mpr hv)
  rcases sum_ints_cases hd 0 with ⟨v, -, -, herr⟩ | ⟨-, m, hm, hsum⟩
  · rw [hn] at herr
    cases herr
  rcases sum_ints_cases hd' 0 with ⟨v, -, -, herr⟩ | ⟨-, m', hm', hsum'⟩
  · rw [hn'] at herr
    cases herr
  obtain rfl := Except.ok.inj (hn.symm.trans hm)
  obtain rfl := Except.ok.inj (hn'.symm.trans hm')
  apply Int64.toInt_inj.mp
  rw [hsum, hsum']
  exact Saturating.sum_perm (by decide) (ints_perm hp) hs

omit hd in
theorem reduce_group_cases (agg : Aggregate) (hd : ∀ v ∈ values, Discrete v) (hne : values ≠ []) :
    (∃ v ∈ values, ¬ Numeric v ∧ agg.Adds ∧
      reduce_group agg values = .error (.NonNumericTarget v)) ∨
    (agg.Adds → ∀ v ∈ values, Numeric v) ∧ ∃ row, reduce_group agg values = .ok row := by
  have hkind := numeric_kind_discrete hd hne
  cases agg with
  | Count => exact .inr ⟨nofun, _, rfl⟩
  | Min => exact .inr ⟨nofun, _, rfl⟩
  | Max => exact .inr ⟨nofun, _, rfl⟩
  | Sum =>
    unfold reduce_group sum_reduce
    rw [hkind]
    rcases sum_ints_cases hd 0 with ⟨v, hv, hnum, herr⟩ | ⟨hall, n, hrun, -⟩
    · refine .inl ⟨v, hv, hnum, .inl rfl, ?_⟩
      rw [herr]
      rfl
    · refine .inr ⟨fun _ => hall, .Sum n, ?_⟩
      rw [hrun]
      rfl
  | Avg =>
    unfold reduce_group avg_reduce
    rw [hkind]
    rcases sum_ints_cases hd 0 with ⟨v, hv, hnum, herr⟩ | ⟨hall, n, hrun, -⟩
    · refine .inl ⟨v, hv, hnum, .inr rfl, ?_⟩
      rw [herr]
      rfl
    · refine .inr ⟨fun _ => hall, .Avg (n.toFloat / values.length.toFloat), ?_⟩
      rw [hrun]
      rfl

omit hd in
theorem map_ok_inv {ε α β : Type} {f : α → β} {x : Except ε α} {b : β} (h : x.map f = .ok b) :
    ∃ a, x = .ok a ∧ f a = b := by
  cases x with
  | error e => cases h
  | ok a => exact ⟨a, rfl, Except.ok.inj h⟩

theorem reduce_group_perm (hp : values.Perm values')
    (hs : agg.Adds → Steady values values') {row row' : AggregateResult}
    (hrow : reduce_group agg values = .ok row) (hrow' : reduce_group agg values' = .ok row') :
    row = row' := by
  have hd' : ∀ v ∈ values', Discrete v := fun v hv => hd v (hp.mem_iff.mpr hv)
  by_cases hnil : values = []
  · subst hnil
    obtain rfl := hp.nil_eq
    exact Except.ok.inj (hrow.symm.trans hrow')
  have hkind := numeric_kind_discrete hd hnil
  have hkind' := numeric_kind_discrete hd' fun h => hnil (h ▸ hp).eq_nil
  cases agg with
  | Count =>
    rw [← Except.ok.inj hrow, ← Except.ok.inj hrow', hp.length_eq]
  | Min =>
    rw [← Except.ok.inj hrow, ← Except.ok.inj hrow']
    unfold extreme_reduce
    rw [Extremes.best_perm lt_linear hd hp]
  | Max =>
    rw [← Except.ok.inj hrow, ← Except.ok.inj hrow']
    unfold extreme_reduce
    rw [Extremes.best_perm gt_linear hd hp]
  | Sum =>
    unfold reduce_group sum_reduce at hrow hrow'
    rw [hkind] at hrow
    rw [hkind'] at hrow'
    obtain ⟨n, hn, rfl⟩ := map_ok_inv hrow
    obtain ⟨n', hn', rfl⟩ := map_ok_inv hrow'
    rw [sum_ints_perm hd hp (hs (.inl rfl)) hn hn']
  | Avg =>
    unfold reduce_group avg_reduce at hrow hrow'
    rw [hkind] at hrow
    rw [hkind'] at hrow'
    obtain ⟨n, hn, rfl⟩ := map_ok_inv hrow
    obtain ⟨n', hn', rfl⟩ := map_ok_inv hrow'
    rw [sum_ints_perm hd hp (hs (.inr rfl)) hn hn', hp.length_eq]

end

end

/-! ## Two orders of the answers -/

section

variable {agg : Aggregate} {target : String} {group_by : List String} {subs subs' : List Binding}

/-- What two orders of the answers have in common. The groups are the same,
and so is the row of each group that is not a sum or is steady; an error is of
a sum, and names a value of a group that is not a number. -/
inductive SameRows (agg : Aggregate) (target : String) (group_by : List String)
    (subs subs' : List Binding) : Except AggregationError (List (Tuple × AggregateResult)) →
    Except AggregationError (List (Tuple × AggregateResult)) → Prop
  | rows {out out'} :
    (∀ key, (entry out key).isSome = (entry out' key).isSome) →
    (∀ key, (agg.Adds →
        Steady (column target group_by subs key) (column target group_by subs' key)) →
      entry out key = entry out' key) →
    SameRows agg target group_by subs subs' (.ok out) (.ok out')
  | error {key key' v v'} :
    agg.Adds →
    v ∈ column target group_by subs key → ¬ Numeric v →
    v' ∈ column target group_by subs key' → ¬ Numeric v' →
    SameRows agg target group_by subs subs' (.error (.NonNumericTarget v))
      (.error (.NonNumericTarget v'))

/-- No value of the target is a float. -/
def DiscreteTarget (target : String) (subs : List Binding) : Prop :=
  ∀ sub ∈ subs, ∀ v, sub target = some v → Discrete v

theorem DiscreteTarget.column (h : DiscreteTarget target subs) (key : Tuple) :
    ∀ v ∈ column target group_by subs key, Discrete v := by
  intro v hv
  obtain ⟨sub, hs, hsub⟩ := column_value hv
  exact h sub hs v hsub

/-- Without floats, the only error is a value that is not a number in a sum. -/
theorem evaluate_result (hash : HashOrder (Tuple × List Value)) (agg : Aggregate)
    (group_by : List String) (hd : DiscreteTarget target subs) :
    (∃ key v, agg.Adds ∧ v ∈ column target group_by subs key ∧ ¬ Numeric v ∧
      evaluate hash agg target group_by subs = .error (.NonNumericTarget v)) ∨
    ∃ out, evaluate hash agg target group_by subs = .ok out ∧
      (agg.Adds → ∀ key, ∀ v ∈ column target group_by subs key, Numeric v) ∧
      Grouped agg target group_by subs out := by
  rcases evaluate_cases hash agg target group_by subs with
    ⟨key, err, herr, hne, hrun⟩ | ⟨out, hrun, hrows, hempty⟩
  · rcases reduce_group_cases agg (hd.column key) hne with
      ⟨v, hv, hnum, hadds, hrow⟩ | ⟨-, row, hrow⟩
    · obtain rfl := Except.error.inj (herr.symm.trans hrow)
      exact .inl ⟨key, v, hadds, hv, hnum, hrun⟩
    · rw [herr] at hrow
      cases hrow
  · refine .inr ⟨out, hrun, ?_, hrows, hempty⟩
    intro hadds key v hv
    have hne := List.ne_nil_of_mem hv
    obtain ⟨row, hrow, -⟩ := hrows key hne
    rcases reduce_group_cases agg (hd.column key) hne with ⟨w, -, -, -, herr⟩ | ⟨hall, -⟩
    · rw [hrow] at herr
      cases herr
    · exact hall hadds v hv

/-- Another order of the bindings gives the same rows, or an error too. -/
theorem evaluate_order (hash hash' : HashOrder (Tuple × List Value)) (agg : Aggregate)
    (target : String) (group_by : List String) (hd : DiscreteTarget target subs)
    (hp : subs.Perm subs') :
    SameRows agg target group_by subs subs' (evaluate hash agg target group_by subs)
      (evaluate hash' agg target group_by subs') := by
  have hd' : DiscreteTarget target subs' := fun sub hs => hd sub (hp.mem_iff.mpr hs)
  have hcol : ∀ key, (column target group_by subs key).Perm (column target group_by subs' key) :=
    fun key => column_perm hp
  rcases evaluate_result hash agg group_by hd with
    ⟨key, v, hadds, hv, hnum, hrun⟩ | ⟨out, hrun, hall, hrows, hempty⟩
  · rcases evaluate_result hash' agg group_by hd' with
      ⟨key', v', -, hv', hnum', hrun'⟩ | ⟨-, -, hall', -⟩
    · rw [hrun, hrun']
      exact .error hadds hv hnum ((hcol key').mem_iff.mpr hv') hnum'
    · exact absurd (hall' hadds key v ((hcol key).mem_iff.mp hv)) hnum
  · rcases evaluate_result hash' agg group_by hd' with
      ⟨key', v', hadds, hv', hnum', -⟩ | ⟨out', hrun', -, hrows', hempty'⟩
    · exact absurd (hall hadds key' v' ((hcol key').mem_iff.mpr hv')) hnum'
    rw [hrun, hrun']
    -- each group either has a value in both orders, or in neither
    have hgroup : ∀ key, entry out key = entry out' key ∨ ∃ row row',
        reduce_group agg (column target group_by subs key) = .ok row ∧
        reduce_group agg (column target group_by subs' key) = .ok row' ∧
        entry out key = some row ∧ entry out' key = some row' := by
      intro key
      by_cases hnil : column target group_by subs key = []
      · have hnil' : column target group_by subs' key = [] := (hnil ▸ hcol key).nil_eq.symm
        rw [hempty key hnil, hempty' key hnil']
        exact .inl rfl
      · have hnil' : column target group_by subs' key ≠ [] := fun h => hnil (h ▸ hcol key).eq_nil
        obtain ⟨row, hrow, hkey⟩ := hrows key hnil
        obtain ⟨row', hrow', hkey'⟩ := hrows' key hnil'
        exact .inr ⟨row, row', hrow, hrow', hkey, hkey'⟩
    refine .rows ?_ ?_
    · intro key
      rcases hgroup key with heq | ⟨row, row', -, -, hkey, hkey'⟩
      · rw [heq]
      · rw [hkey, hkey']
        rfl
    · intro key hsteady
      rcases hgroup key with heq | ⟨row, row', hrow, hrow', hkey, hkey'⟩
      · exact heq
      · rw [hkey, hkey', reduce_group_perm (hd.column key) (hcol key) hsteady hrow hrow']

/-- The answer that binds `x` to an integer. -/
def reading (n : Int64) : Binding := fun name => if name = "x" then some (.Num n) else none

theorem reading_discrete (ns : List Int64) : DiscreteTarget "x" (ns.map reading) := by
  intro sub hs v hv
  obtain ⟨n, -, rfl⟩ := List.mem_map.mp hs
  obtain rfl := Option.some.inj hv
  trivial

theorem readings_in_two_orders :
    SameRows .Avg "x" ["x"] ([3, -4, 3].map reading) ([3, 3, -4].map reading)
      (evaluate (HashOrder.plain _) .Avg "x" ["x"] ([3, -4, 3].map reading))
      (evaluate (HashOrder.plain _) .Avg "x" ["x"] ([3, 3, -4].map reading)) :=
  evaluate_order _ _ .Avg "x" ["x"] (reading_discrete _) ((List.Perm.swap _ _ _).cons _)

/-- A sum is not the same in every order: past the last `i64` it stays there. -/
theorem saturated_sum_orders : ¬ ∀ (hash : HashOrder (Tuple × List Value)) (agg : Aggregate)
    (target : String) (group_by : List String) (subs subs' : List Binding),
    DiscreteTarget target subs → subs.Perm subs' →
    (∃ err, evaluate hash agg target group_by subs = .error err ∧
      evaluate hash agg target group_by subs' = .error err) ∨
    ∃ out out', evaluate hash agg target group_by subs = .ok out ∧
      evaluate hash agg target group_by subs' = .ok out' ∧
      ∀ key, entry out key = entry out' key := by
  intro h
  have hd : DiscreteTarget "x" [reading Int64.maxValue, reading 1, reading (-1)] :=
    reading_discrete [Int64.maxValue, 1, -1]
  have hp : [reading Int64.maxValue, reading 1, reading (-1)].Perm
      [reading Int64.maxValue, reading (-1), reading 1] := (List.Perm.swap _ _ _).cons _
  rcases h (HashOrder.plain _) .Sum "x" [] _ _ hd hp with
    ⟨err, herr, -⟩ | ⟨out, out', hout, hout', heq⟩
  · cases herr
  · have hkey := heq []
    obtain rfl := Except.ok.inj hout
    obtain rfl := Except.ok.inj hout'
    have hsum := AggregateResult.Sum.inj (Option.some.inj hkey)
    revert hsum
    decide

end

end paideia_as_shell_datalog
