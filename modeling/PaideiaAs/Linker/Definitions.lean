-- What the resolve phase computes: for each hash, the first definition that
-- is not weak, or else the first one; and whether every reference is answered.
import PaideiaAs.Linker.Resolve

namespace paideia_as_linker

open Buffer paideia_as_emitter_pax
open Outcome (bind_eq_ok ok_bind)

/-! ## The tables of an input -/

/-- The symbols of an input: none when it has no table that can be read. -/
def symbols (pax : ParsedPax) : List SymEntry :=
  match symtab pax with
  | .ok (some st) => st.entries
  | _ => []

def exported (pax : ParsedPax) : List CapDescriptor :=
  match exports pax with
  | .ok (some es) => es.entries
  | _ => []

def imported (pax : ParsedPax) : List CapDescriptor :=
  match imports pax with
  | .ok (some is) => is.entries
  | _ => []

/-- The three tables that the resolve phase reads lie in the file. -/
structure ParsedPax.TablesReadable (pax : ParsedPax) : Prop where
  symtab : pax.Readable .Symtab
  exports : pax.Readable .Exports
  imports : pax.Readable .Imports

/-! ## The phases as pure functions -/

def indexAll : Nat → List ParsedPax → GlobalSymbolTable → GlobalSymbolTable
  | _, [], t => t
  | i, p :: ps, t => indexAll (i + 1) ps (t.index_entries i 0 (symbols p))

def provideAll : Nat → List ParsedPax → GlobalCapabilityTable → GlobalCapabilityTable
  | _, [], t => t
  | i, p :: ps, t => provideAll (i + 1) ps
      ⟨(exported p).foldl (fun m cap => Function.update m cap.blake3_name_hash (some i)) t.provided⟩

variable {ps : List ParsedPax} {h : UInt64}

theorem index_symbols_eq (h : ∀ p ∈ ps, p.Readable .Symtab) :
    ∀ i t, index_symbols i ps t = .ok (indexAll i ps t) := by
  induction ps with
  | nil => exact fun _ _ => rfl
  | cons p ps ih =>
    intro i t
    obtain ⟨r, hr⟩ := symtab_isOk_iff.mpr (h p (.head _))
    have ih := ih (fun q hq => h q (.tail _ hq))
    rw [index_symbols, hr, ok_bind, indexAll, symbols, hr]
    rcases r with _ | st
    · exact ih _ _
    · exact ih _ _

theorem index_exports_eq (h : ∀ p ∈ ps, p.Readable .Exports) :
    ∀ i t, index_exports i ps t = .ok (provideAll i ps t) := by
  induction ps with
  | nil => exact fun _ _ => rfl
  | cons p ps ih =>
    intro i t
    obtain ⟨r, hr⟩ := exports_isOk_iff.mpr (h p (.head _))
    have ih := ih (fun q hq => h q (.tail _ hq))
    rw [index_exports, hr, ok_bind, provideAll, exported, hr]
    rcases r with _ | es
    · exact ih _ _
    · exact ih _ _

/-- Phase 3 reports nothing exactly when every undefined symbol is in the
table. -/
theorem check_symbols_ends (t : GlobalSymbolTable) (h : ∀ p ∈ ps, p.Readable .Symtab) :
    ∃ ds, check_symbols t ps = .ok ds ∧ (ds = [] ↔ ∀ p ∈ ps, ∀ e ∈ symbols p,
      e.section_index = SHN_UNDEF → (t.by_hash e.blake3_name_hash).isSome) := by
  induction ps with
  | nil => exact ⟨[], rfl, by simp⟩
  | cons p ps ih =>
    obtain ⟨r, hr⟩ := symtab_isOk_iff.mpr (h p (.head _))
    obtain ⟨ds, hds, hiff⟩ := ih (fun q hq => h q (.tail _ hq))
    rw [check_symbols, hr, ok_bind, hds, ok_bind]
    refine ⟨_, rfl, ?_⟩
    rw [List.append_eq_nil_iff, hiff, List.forall_mem_cons, symbols, hr]
    rcases r with _ | st
    · simp
    · simp [List.filter_eq_nil_iff, Option.isSome_iff_ne_none]

theorem check_imports_ends (t : GlobalCapabilityTable) (h : ∀ p ∈ ps, p.Readable .Imports) :
    ∃ ds, check_imports t ps = .ok ds ∧ (ds = [] ↔ ∀ p ∈ ps, ∀ c ∈ imported p,
      (t.provided c.blake3_name_hash).isSome) := by
  induction ps with
  | nil => exact ⟨[], rfl, by simp⟩
  | cons p ps ih =>
    obtain ⟨r, hr⟩ := imports_isOk_iff.mpr (h p (.head _))
    obtain ⟨ds, hds, hiff⟩ := ih (fun q hq => h q (.tail _ hq))
    rw [check_imports, hr, ok_bind, hds, ok_bind]
    refine ⟨_, rfl, ?_⟩
    rw [List.append_eq_nil_iff, hiff, List.forall_mem_cons, imported, hr]
    rcases r with _ | is
    · simp
    · simp [List.filter_eq_nil_iff, Option.isSome_iff_ne_none]

theorem symbol_mappings_ends (h : ∀ p ∈ ps, p.Readable .Symtab) :
    ∀ i, ∃ rs, symbol_mappings i ps = .ok rs ∧ rs.length = ps.length := by
  induction ps with
  | nil => exact fun _ => ⟨[], rfl, rfl⟩
  | cons p ps ih =>
    intro i
    obtain ⟨r, hr⟩ := symtab_isOk_iff.mpr (h p (.head _))
    obtain ⟨rs, hrs, hlen⟩ := ih (fun q hq => h q (.tail _ hq)) (i + 1)
    rw [symbol_mappings, hr, ok_bind, hrs, ok_bind]
    exact ⟨_, rfl, by simp [hlen]⟩

/-! ## The definitions of a hash -/

/-- Input `i` defines the hash with entry `k` of its table. -/
def Defines (ps : List ParsedPax) (h : UInt64) (i k : Nat) (b : SymBinding) : Prop :=
  ∃ p e, ps[i]? = some p ∧ (symbols p)[k]? = some e ∧ e.section_index ≠ SHN_UNDEF ∧
    e.blake3_name_hash = h ∧ e.binding = b

/-- The definitions in one table, whose first entry is entry `k`. -/
def places (h : UInt64) (i : Nat) : Nat → List SymEntry → List (Place × SymBinding)
  | _, [] => []
  | k, e :: es =>
    if e.section_index ≠ SHN_UNDEF ∧ e.blake3_name_hash = h then
      ((i, k), e.binding) :: places h i (k + 1) es
    else places h i (k + 1) es

/-- The definitions in all inputs, the first of which is input `i`. -/
def definitions (h : UInt64) : Nat → List ParsedPax → List (Place × SymBinding)
  | _, [] => []
  | i, p :: ps => places h i 0 (symbols p) ++ definitions h (i + 1) ps

theorem mem_places {i : Nat} {d : Place × SymBinding} {es : List SymEntry} :
    ∀ {k : Nat}, d ∈ places h i k es ↔ d.1.1 = i ∧ k ≤ d.1.2 ∧
      ∃ e, es[d.1.2 - k]? = some e ∧ e.section_index ≠ SHN_UNDEF ∧ e.blake3_name_hash = h ∧
        e.binding = d.2 := by
  induction es with
  | nil => simp [places]
  | cons e es ih =>
    intro k
    obtain ⟨⟨j, m⟩, b⟩ := d
    -- entry `k` is the head, and every later one is an entry of the tail
    have htail : ((j, m), b) ∈ places h i (k + 1) es ↔ j = i ∧ k + 1 ≤ m ∧
        ∃ e', (e :: es)[m - k]? = some e' ∧ e'.section_index ≠ SHN_UNDEF ∧
          e'.blake3_name_hash = h ∧ e'.binding = b := by
      rw [ih]
      constructor
      · rintro ⟨hj, hm, e', he', hrest⟩
        refine ⟨hj, hm, e', ?_, hrest⟩
        dsimp only at hm
        rw [show m - k = (m - (k + 1)) + 1 by omega, List.getElem?_cons_succ]
        exact he'
      · rintro ⟨hj, hm, e', he', hrest⟩
        refine ⟨hj, hm, e', ?_, hrest⟩
        rw [show m - k = (m - (k + 1)) + 1 by omega, List.getElem?_cons_succ] at he'
        exact he'
    have hhead : (∃ e', (e :: es)[k - k]? = some e' ∧ e'.section_index ≠ SHN_UNDEF ∧
        e'.blake3_name_hash = h ∧ e'.binding = b) ↔
        (e.section_index ≠ SHN_UNDEF ∧ e.blake3_name_hash = h) ∧ e.binding = b := by
      simp [and_assoc]
    unfold places
    split
    · next hdef =>
      rw [List.mem_cons, htail]
      simp only [Prod.mk.injEq]
      constructor
      · rintro (⟨⟨rfl, rfl⟩, rfl⟩ | ⟨hj, hm, hrest⟩)
        · exact ⟨rfl, Nat.le_refl _, hhead.mpr ⟨hdef, rfl⟩⟩
        · exact ⟨hj, by omega, hrest⟩
      · rintro ⟨rfl, hm, hrest⟩
        by_cases hmk : m = k
        · subst hmk
          exact .inl ⟨⟨rfl, rfl⟩, (hhead.mp hrest).2.symm⟩
        · exact .inr ⟨rfl, by omega, hrest⟩
    · next hdef =>
      rw [htail]
      constructor
      · rintro ⟨hj, hm, hrest⟩
        exact ⟨hj, by dsimp only; omega, hrest⟩
      · rintro ⟨hj, hm, hrest⟩
        by_cases hmk : m = k
        · subst hmk
          exact absurd (hhead.mp hrest).1 hdef
        · exact ⟨hj, by dsimp only at hm; omega, hrest⟩

theorem mem_definitions {d : Place × SymBinding} :
    ∀ {i : Nat}, d ∈ definitions h i ps ↔ i ≤ d.1.1 ∧ Defines ps h (d.1.1 - i) d.1.2 d.2 := by
  induction ps with
  | nil => simp [definitions, Defines]
  | cons p ps ih =>
    intro i
    obtain ⟨⟨j, m⟩, b⟩ := d
    rw [definitions, List.mem_append, mem_places, ih]
    simp only [Nat.sub_zero, Nat.zero_le, true_and]
    constructor
    · rintro (⟨rfl, e, he⟩ | ⟨hj, q, e, hq, he⟩)
      · exact ⟨Nat.le_refl _, p, e, by simp, he⟩
      · refine ⟨by omega, q, e, ?_, he⟩
        rw [show j - i = (j - (i + 1)) + 1 by omega, List.getElem?_cons_succ]
        exact hq
    · rintro ⟨hj, q, e, hq, he⟩
      by_cases hij : j = i
      · subst hij
        simp only [Nat.sub_self, List.getElem?_cons_zero, Option.some.injEq] at hq
        subst hq
        exact .inl ⟨rfl, e, he⟩
      · rw [show j - i = (j - (i + 1)) + 1 by omega, List.getElem?_cons_succ] at hq
        exact .inr ⟨by omega, q, e, hq, he⟩

/-- Places come in the order of the inputs, then of their tables. -/
def Before (a b : Place) : Prop := a.1 < b.1 ∨ (a.1 = b.1 ∧ a.2 < b.2)

theorem pairwise_places (h : UInt64) (i : Nat) (es : List SymEntry) : ∀ k,
    (places h i k es).Pairwise (fun a b => Before a.1 b.1) := by
  induction es with
  | nil => exact fun _ => .nil
  | cons e es ih =>
    intro k
    unfold places
    split
    · refine List.pairwise_cons.mpr ⟨?_, ih _⟩
      intro d hd
      obtain ⟨hi, hk, -⟩ := mem_places.mp hd
      exact .inr ⟨hi.symm, by dsimp only; omega⟩
    · exact ih _

theorem pairwise_definitions (h : UInt64) (ps : List ParsedPax) : ∀ i,
    (definitions h i ps).Pairwise (fun a b => Before a.1 b.1) := by
  induction ps with
  | nil => exact fun _ => .nil
  | cons p ps ih =>
    intro i
    refine List.pairwise_append.mpr ⟨pairwise_places _ _ _ _, ih _, ?_⟩
    intro a ha b hb
    obtain ⟨hi, -⟩ := mem_places.mp ha
    obtain ⟨hlt, -⟩ := mem_definitions.mp hb
    exact .inl (by omega)

/-! ## The definition that the table keeps -/

/-- A new definition replaces the one of the table when it is the first, or
when only the old one is weak. -/
def pick : Option (Place × SymBinding) → Place × SymBinding → Option (Place × SymBinding)
  | none, d => some d
  | some c, d => if c.2 = .Weak ∧ d.2 ≠ .Weak then some d else some c

/-- What the two maps of a table say about a hash. -/
def Shows (t : GlobalSymbolTable) (h : UInt64) (o : Option (Place × SymBinding)) : Prop :=
  t.by_hash h = o.map Prod.fst ∧ t.bindings h = o.map Prod.snd

theorem insert_shows {t : GlobalSymbolTable} {o : Option (Place × SymBinding)}
    (h' : UInt64) (p : Place) (b : SymBinding) (hs : Shows t h o) :
    Shows (t.insert h' p b) h (if h' = h then some (p, b) else o) := by
  unfold Shows at hs ⊢
  unfold GlobalSymbolTable.insert
  by_cases heq : h' = h
  · subst heq
    simp
  · simpa [heq, Function.update_of_ne (Ne.symm heq)] using hs

theorem index_entry_shows {t : GlobalSymbolTable} {o : Option (Place × SymBinding)}
    (i k : Nat) (e : SymEntry) (hs : Shows t h o) :
    Shows (t.index_entry i k e) h
      (if e.section_index ≠ SHN_UNDEF ∧ e.blake3_name_hash = h then pick o ((i, k), e.binding)
        else o) := by
  unfold GlobalSymbolTable.index_entry
  by_cases hdef : e.section_index ≠ SHN_UNDEF
  swap
  · rw [if_neg hdef, if_neg (fun hc => hdef hc.1)]
    exact hs
  rw [if_pos hdef]
  by_cases hh : e.blake3_name_hash = h
  swap
  · -- an entry of another hash
    rw [if_neg (fun hc => hh hc.2)]
    have hkeep := insert_shows e.blake3_name_hash (i, k) e.binding hs
    rw [if_neg hh] at hkeep
    dsimp only
    split
    · exact hkeep
    · split
      · exact hkeep
      · exact hs
    all_goals
      split
      · exact hkeep
      · exact hs
  subst hh
  rw [if_pos ⟨hdef, rfl⟩]
  have hnew := insert_shows e.blake3_name_hash (i, k) e.binding hs
  rw [if_pos rfl] at hnew
  have hbind := hs.2
  rcases o with _ | ⟨p, b⟩
  · simp only [hbind, Option.map_none]
    exact hnew
  · simp only [hbind, Option.map_some]
    cases b with
    | Weak =>
      simp only [pick, true_and]
      split
      · exact hnew
      · exact hs
    | Local => simpa [pick] using hs
    | Global => simpa [pick] using hs

theorem index_entries_shows (i : Nat) (es : List SymEntry) :
    ∀ (k : Nat) (t : GlobalSymbolTable) (o : Option (Place × SymBinding)), Shows t h o →
      Shows (t.index_entries i k es) h ((places h i k es).foldl pick o) := by
  induction es with
  | nil => exact fun _ _ _ hs => hs
  | cons e es ih =>
    intro k t o hs
    have hstep := index_entry_shows i k e hs
    have hrest := ih (k + 1) _ _ hstep
    rw [GlobalSymbolTable.index_entries, places]
    split
    · next hdef =>
      rw [if_pos hdef] at hrest
      exact hrest
    · next hdef =>
      rw [if_neg hdef] at hrest
      exact hrest

theorem indexAll_shows (ps : List ParsedPax) :
    ∀ (i : Nat) (t : GlobalSymbolTable) (o : Option (Place × SymBinding)), Shows t h o →
      Shows (indexAll i ps t) h ((definitions h i ps).foldl pick o) := by
  induction ps with
  | nil => exact fun _ _ _ hs => hs
  | cons p ps ih =>
    intro i t o hs
    rw [indexAll, definitions, List.foldl_append]
    exact ih _ _ _ (index_entries_shows i (symbols p) 0 t o hs)

/-- Not weak. -/
def strong (d : Place × SymBinding) : Bool := d.2 ≠ .Weak

theorem foldl_pick_some (ds : List (Place × SymBinding)) : ∀ c,
    ds.foldl pick (some c) = some (if strong c then c else (ds.find? strong).getD c) := by
  induction ds with
  | nil => simp
  | cons d ds ih =>
    intro c
    rw [List.foldl_cons, pick]
    by_cases hc : c.2 = .Weak
    · by_cases hd : d.2 = .Weak
      · rw [if_neg (fun h => h.2 hd), ih]
        simp [strong, hc, hd]
      · rw [if_pos ⟨hc, hd⟩, ih]
        simp [strong, hc, hd]
    · rw [if_neg (fun h => hc h.1), ih]
      simp [strong, hc]

/-- The table keeps the first definition that is not weak, or else the first. -/
theorem foldl_pick_none (ds : List (Place × SymBinding)) :
    ds.foldl pick none = (ds.find? strong).or ds.head? := by
  rcases ds with _ | ⟨d, ds⟩
  · rfl
  · rw [List.foldl_cons, pick, foldl_pick_some]
    by_cases hd : strong d = true
    · simp [hd]
    · rw [if_neg hd, List.find?_cons_of_neg hd, List.head?_cons]
      rcases ds.find? strong with _ | x
      · rfl
      · rfl

/-- The table of all the inputs. -/
def symbolTable (ps : List ParsedPax) : GlobalSymbolTable := indexAll 0 ps .default

theorem symbolTable_by_hash (ps : List ParsedPax) (h : UInt64) : (symbolTable ps).by_hash h =
      (((definitions h 0 ps).find? strong).or (definitions h 0 ps).head?).map Prod.fst := by
  rw [← foldl_pick_none]
  exact (indexAll_shows ps 0 .default none ⟨rfl, rfl⟩).1

theorem symbolTable_isSome_iff (ps : List ParsedPax) (h : UInt64) :
    ((symbolTable ps).by_hash h).isSome ↔ ∃ i k b, Defines ps h i k b := by
  rw [symbolTable_by_hash, Option.isSome_map]
  constructor
  · intro hsome
    obtain ⟨d, hd⟩ := Option.isSome_iff_exists.mp hsome
    have hmem : d ∈ definitions h 0 ps := by
      rcases Option.or_eq_some_iff.mp hd with hf | ⟨-, hh⟩
      · exact List.mem_of_find?_eq_some hf
      · exact List.mem_of_head? hh
    exact ⟨_, _, _, (mem_definitions.mp hmem).2⟩
  · rintro ⟨i, k, b, hdef⟩
    have hmem : ((i, k), b) ∈ definitions h 0 ps := mem_definitions.mpr ⟨Nat.zero_le _, hdef⟩
    rcases hds : definitions h 0 ps with _ | ⟨d, ds⟩
    · rw [hds] at hmem
      cases hmem
    · simp

/-- The definition in the table is one of the inputs', and when one of them is
not weak it is not weak either and comes no later. -/
theorem symbolTable_spec {place : Place} (hp : (symbolTable ps).by_hash h = some place) :
    ∃ b, Defines ps h place.1 place.2 b ∧ ∀ i k b', Defines ps h i k b' → b' ≠ .Weak →
      b ≠ .Weak ∧ (((i, k), b') = (place, b) ∨ Before place (i, k)) := by
  rw [symbolTable_by_hash] at hp
  obtain ⟨⟨p, b⟩, hd, rfl⟩ := Option.map_eq_some_iff.mp hp
  rcases Option.or_eq_some_iff.mp hd with hf | ⟨hnone, hh⟩
  · obtain ⟨hstrong, front, back, hsplit, hfront⟩ := List.find?_eq_some_iff_append.mp hf
    have hmem : (p, b) ∈ definitions h 0 ps := by rw [hsplit]; simp
    refine ⟨b, (mem_definitions.mp hmem).2, ?_⟩
    intro i k b' hdef hb'
    refine ⟨by simpa [strong] using hstrong, ?_⟩
    have hmem' : ((i, k), b') ∈ definitions h 0 ps := mem_definitions.mpr ⟨Nat.zero_le _, hdef⟩
    have hsorted := pairwise_definitions h ps 0
    rw [hsplit] at hmem' hsorted
    rcases List.mem_append.mp hmem' with hin | hin
    · have := hfront _ hin
      simp [strong, hb'] at this
    · rcases List.mem_cons.mp hin with heq | hin
      · exact .inl heq
      · exact .inr ((List.pairwise_cons.mp (List.pairwise_append.mp hsorted).2.1).1 _ hin)
  · have hmem : (p, b) ∈ definitions h 0 ps := List.mem_of_head? hh
    refine ⟨b, (mem_definitions.mp hmem).2, ?_⟩
    intro i k b' hdef hb'
    have hmem' : ((i, k), b') ∈ definitions h 0 ps := mem_definitions.mpr ⟨Nat.zero_le _, hdef⟩
    have := List.find?_eq_none.mp hnone _ hmem'
    simp [strong, hb'] at this

/-! ## Capabilities -/

/-- The capabilities of all the inputs. -/
def capabilityTable (ps : List ParsedPax) : GlobalCapabilityTable := provideAll 0 ps .default

def Exported (ps : List ParsedPax) (h : UInt64) : Prop :=
  ∃ p ∈ ps, ∃ c ∈ exported p, c.blake3_name_hash = h

theorem foldl_update_isSome (i : Nat) (cs : List CapDescriptor) : ∀ m : UInt64 → Option Nat,
      ((cs.foldl (fun (m : UInt64 → Option Nat) cap =>
        Function.update m cap.blake3_name_hash (some i)) m) h).isSome ↔
        (m h).isSome ∨ ∃ c ∈ cs, c.blake3_name_hash = h := by
  induction cs with
  | nil => simp
  | cons c cs ih =>
    intro m
    rw [List.foldl_cons, ih]
    by_cases hc : c.blake3_name_hash = h
    · simp [hc]
    · simp [hc, Function.update_of_ne (Ne.symm hc)]

theorem provideAll_isSome (ps : List ParsedPax) : ∀ i (t : GlobalCapabilityTable),
    ((provideAll i ps t).provided h).isSome ↔ (t.provided h).isSome ∨ Exported ps h := by
  induction ps with
  | nil => simp [provideAll, Exported]
  | cons p ps ih =>
    intro i t
    rw [provideAll, ih, foldl_update_isSome, or_assoc]
    simp [Exported]

theorem capabilityTable_isSome_iff (ps : List ParsedPax) (h : UInt64) :
    ((capabilityTable ps).provided h).isSome ↔ Exported ps h := by
  rw [capabilityTable, provideAll_isSome]
  simp [GlobalCapabilityTable.default]

/-! ## The phase as a whole -/

/-- Some input refers to the hash and does not define it. -/
def Undefined (ps : List ParsedPax) (h : UInt64) : Prop :=
  ∃ p ∈ ps, ∃ e ∈ symbols p, e.section_index = SHN_UNDEF ∧ e.blake3_name_hash = h

def Imported (ps : List ParsedPax) (h : UInt64) : Prop :=
  ∃ p ∈ ps, ∃ c ∈ imported p, c.blake3_name_hash = h

/-- Every reference is answered: each undefined symbol by a definition of any
binding, each imported capability by an export. -/
structure Answered (ps : List ParsedPax) : Prop where
  symbols : ∀ h, Undefined ps h → ∃ i k b, Defines ps h i k b
  capabilities : ∀ h, Imported ps h → Exported ps h

/-- The phase on inputs whose tables can be read: no fault, and a link exactly
when every reference is answered. -/
theorem resolve_inputs_ends (h : ∀ p ∈ ps, p.TablesReadable) :
    ∃ link diagnostics, resolve_inputs ps = .ok (link, diagnostics) ∧
      (link.isSome ↔ Answered ps) ∧
      ∀ l, link = some l → l.global_symbol_table = symbolTable ps ∧
        l.pax_files.length = ps.length := by
  have hsym : ∀ p ∈ ps, p.Readable .Symtab := fun p hp => (h p hp).symtab
  obtain ⟨undefined, hundefined, hnone⟩ := check_symbols_ends (symbolTable ps) hsym
  obtain ⟨unbound, hunbound, hnone'⟩ :=
    check_imports_ends (capabilityTable ps) (fun p hp => (h p hp).imports)
  obtain ⟨files, hfiles, hlen⟩ := symbol_mappings_ends hsym 0
  have hanswered : (undefined ++ unbound = []) ↔ Answered ps := by
    rw [List.append_eq_nil_iff, hnone, hnone']
    constructor
    · rintro ⟨hs, hc⟩
      constructor
      · rintro _ ⟨p, hp, e, he, hundef, rfl⟩
        exact (symbolTable_isSome_iff ps _).mp (hs p hp e he hundef)
      · rintro _ ⟨p, hp, c, hc', rfl⟩
        exact (capabilityTable_isSome_iff ps _).mp (hc p hp c hc')
    · intro ha
      constructor
      · intro p hp e he hundef
        exact (symbolTable_isSome_iff ps _).mpr (ha.symbols _ ⟨p, hp, e, he, hundef, rfl⟩)
      · intro p hp c hc
        exact (capabilityTable_isSome_iff ps _).mpr (ha.capabilities _ ⟨p, hp, c, hc, rfl⟩)
  have hindex : index_symbols 0 ps .default = .ok (symbolTable ps) := index_symbols_eq hsym 0 _
  have hprovide : index_exports 0 ps .default = .ok (capabilityTable ps) :=
    index_exports_eq (fun p hp => (h p hp).exports) 0 _
  unfold resolve_inputs
  simp only [hindex, hprovide, hundefined, hunbound, hfiles, ok_bind]
  by_cases hall : undefined ++ unbound = []
  · rw [if_neg (by simpa using hall)]
    exact ⟨_, _, rfl, by simp [← hanswered, hall], by rintro _ ⟨⟩; exact ⟨rfl, hlen⟩⟩
  · rw [if_pos hall]
    exact ⟨_, _, rfl, by simp [← hanswered, hall], by rintro _ ⟨⟩⟩

theorem tablesReadable_of_resolve {r : Option ResolvedLink × List Diagnostic}
    (h : resolve_inputs ps = .ok r) : ∀ p ∈ ps, p.TablesReadable := by
  have hsym : ∀ (ps : List ParsedPax) i t t', index_symbols i ps t = .ok t' →
      ∀ p ∈ ps, p.Readable .Symtab := by
    intro ps
    induction ps with
    | nil => simp
    | cons p ps ih =>
      intro i t t' h
      obtain ⟨st, hst, h⟩ := bind_eq_ok.mp h
      refine List.forall_mem_cons.mpr ⟨symtab_isOk_iff.mp ⟨_, hst⟩, ?_⟩
      rcases st with _ | st
      · exact ih _ _ _ h
      · exact ih _ _ _ h
  have hexp : ∀ (ps : List ParsedPax) i t t', index_exports i ps t = .ok t' →
      ∀ p ∈ ps, p.Readable .Exports := by
    intro ps
    induction ps with
    | nil => simp
    | cons p ps ih =>
      intro i t t' h
      obtain ⟨es, hes, h⟩ := bind_eq_ok.mp h
      refine List.forall_mem_cons.mpr ⟨exports_isOk_iff.mp ⟨_, hes⟩, ?_⟩
      rcases es with _ | es
      · exact ih _ _ _ h
      · exact ih _ _ _ h
  have himp : ∀ (ps : List ParsedPax) t ds, check_imports t ps = .ok ds →
      ∀ p ∈ ps, p.Readable .Imports := by
    intro ps
    induction ps with
    | nil => simp
    | cons p ps ih =>
      intro t ds h
      obtain ⟨is, his, h⟩ := bind_eq_ok.mp h
      obtain ⟨rest, hrest, -⟩ := bind_eq_ok.mp h
      exact List.forall_mem_cons.mpr ⟨imports_isOk_iff.mp ⟨_, his⟩, ih _ _ hrest⟩
  obtain ⟨t, ht, h⟩ := bind_eq_ok.mp h
  obtain ⟨c, hc, h⟩ := bind_eq_ok.mp h
  obtain ⟨u, -, h⟩ := bind_eq_ok.mp h
  obtain ⟨v, hv, -⟩ := bind_eq_ok.mp h
  exact fun p hp => ⟨hsym ps _ _ _ ht p hp, hexp ps _ _ _ hc p hp, himp ps _ _ hv p hp⟩

end paideia_as_linker
