-- Symbol resolution against the meaning of the bindings: a local definition
-- is not visible to other files, a global one wins over weak ones, and the
-- order of the inputs does not matter. The table keeps local definitions next
-- to the others, so this holds only where none of them gets in the way.
import Mathlib.GroupTheory.Perm.Basic
import PaideiaAs.Linker.Definitions

namespace paideia_as_linker

open Buffer paideia_as_emitter_pax
open Equiv (Perm swap)

/-! ## The intended resolution -/

/-- Some input defines the hash with a binding that other files see. -/
def Visible (ps : List ParsedPax) (h : UInt64) : Prop :=
  ∃ i k b, Defines ps h i k b ∧ b ≠ .Local

/-- The inputs have one global definition of a hash at most. -/
def OneGlobal (ps : List ParsedPax) : Prop :=
  ∀ h i k i' k', Defines ps h i k .Global → Defines ps h i' k' .Global → (i, k) = (i', k')

/-- The resolution of the undefined symbols by a table, and its success, are
those of the visible definitions. -/
structure Respects (ps : List ParsedPax) (t : GlobalSymbolTable) (link : Option ResolvedLink) :
    Prop where
  resolved : ∀ h, Undefined ps h → ((t.by_hash h).isSome ↔ Visible ps h)
  visible : ∀ h i k, Undefined ps h → t.by_hash h = some (i, k) →
    ∃ b, Defines ps h i k b ∧ b ≠ .Local
  global : ∀ h i k, Undefined ps h → Defines ps h i k .Global → t.by_hash h = some (i, k)
  succeeds : link.isSome ↔
    (∀ h, Undefined ps h → Visible ps h) ∧ ∀ h, Imported ps h → Exported ps h
  table : ∀ l, link = some l → l.global_symbol_table = t

/-- The phase goes through, and resolves as the bindings say. -/
def RespectsBinding (ps : List ParsedPax) : Prop :=
  ∃ t link diagnostics, index_symbols 0 ps .default = .ok t ∧
    resolve_inputs ps = .ok (link, diagnostics) ∧ Respects ps t link

/-- The inputs in the order that `σ` gives: place `j` holds input `σ j`. -/
def reorder (ps : List ParsedPax) (σ : Perm (Fin ps.length)) : List ParsedPax :=
  List.ofFn fun j => ps.get (σ j)

/-- Reordering the inputs changes neither the success nor the choice among
global definitions, whose places move with their inputs. -/
def SameResolution (ps : List ParsedPax) (σ : Perm (Fin ps.length)) : Prop :=
  ∀ t t' link link' ds ds', index_symbols 0 ps .default = .ok t →
    index_symbols 0 (reorder ps σ) .default = .ok t' →
    resolve_inputs ps = .ok (link, ds) → resolve_inputs (reorder ps σ) = .ok (link', ds') →
    (link.isSome ↔ link'.isSome) ∧
    ∀ h (j : Fin ps.length) k, Undefined ps h → Defines ps h (σ j) k .Global →
      (t'.by_hash h = some (j.val, k) ↔ t.by_hash h = some ((σ j).val, k))

/-- A local definition of a symbol that some file lacks stands behind a global
one in the same table. -/
def LocalsBehindGlobals (ps : List ParsedPax) : Prop :=
  ∀ h i k, Undefined ps h → Defines ps h i k .Local → ∃ k' < k, Defines ps h i k' .Global

/-! ## Reordered inputs -/

section

variable {ps : List ParsedPax} (σ : Perm (Fin ps.length))

theorem getElem?_reorder (j : Fin ps.length) : (reorder ps σ)[j.val]? = ps[(σ j).val]? := by
  have hj : j.val < (reorder ps σ).length := by simp [reorder]
  rw [List.getElem?_eq_getElem hj, List.getElem?_eq_getElem (σ j).isLt]
  simp [reorder]

theorem mem_reorder {p : ParsedPax} : p ∈ reorder ps σ ↔ p ∈ ps := by
  unfold reorder
  rw [List.mem_ofFn, List.mem_iff_get]
  constructor
  · rintro ⟨j, rfl⟩
    exact ⟨σ j, rfl⟩
  · rintro ⟨n, rfl⟩
    exact ⟨σ.symm n, by rw [Equiv.apply_symm_apply]⟩

variable {h : UInt64}

theorem defines_reorder {j : Fin ps.length} {k : Nat} {b : SymBinding} :
    Defines (reorder ps σ) h j k b ↔ Defines ps h (σ j) k b := by
  unfold Defines
  rw [getElem?_reorder]

theorem Defines.lt {i k : Nat} {b : SymBinding} (hd : Defines ps h i k b) : i < ps.length := by
  obtain ⟨p, e, hp, -⟩ := hd
  exact (List.getElem?_eq_some_iff.mp hp).1

theorem length_reorder : (reorder ps σ).length = ps.length := by
  simp [reorder]

theorem exists_defines_reorder {P : SymBinding → Prop} :
    (∃ i k b, Defines (reorder ps σ) h i k b ∧ P b) ↔ ∃ i k b, Defines ps h i k b ∧ P b := by
  constructor
  · rintro ⟨i, k, b, hd, hb⟩
    have hi : i < ps.length := length_reorder σ ▸ hd.lt
    exact ⟨_, k, b, (defines_reorder σ (j := ⟨i, hi⟩)).mp hd, hb⟩
  · rintro ⟨i, k, b, hd, hb⟩
    refine ⟨σ.symm ⟨i, hd.lt⟩, k, b, (defines_reorder σ).mpr ?_, hb⟩
    rw [Equiv.apply_symm_apply]
    exact hd

theorem undefined_reorder : Undefined (reorder ps σ) h ↔ Undefined ps h := by
  simp only [Undefined, mem_reorder]

theorem imported_reorder : Imported (reorder ps σ) h ↔ Imported ps h := by
  simp only [Imported, mem_reorder]

theorem exported_reorder : Exported (reorder ps σ) h ↔ Exported ps h := by
  simp only [Exported, mem_reorder]

theorem visible_reorder : Visible (reorder ps σ) h ↔ Visible ps h :=
  exists_defines_reorder σ

theorem oneGlobal_reorder (hone : OneGlobal ps) : OneGlobal (reorder ps σ) := by
  intro h i k i' k' hd hd'
  have hi : i < ps.length := length_reorder σ ▸ hd.lt
  have hi' : i' < ps.length := length_reorder σ ▸ hd'.lt
  have heq := hone h _ _ _ _ ((defines_reorder σ (j := ⟨i, hi⟩)).mp hd)
    ((defines_reorder σ (j := ⟨i', hi'⟩)).mp hd')
  rw [Prod.mk.injEq] at heq ⊢
  have hsame := σ.injective (Fin.ext heq.1)
  exact ⟨congrArg Fin.val hsame, heq.2⟩

theorem localsBehindGlobals_reorder (hloc : LocalsBehindGlobals ps) :
    LocalsBehindGlobals (reorder ps σ) := by
  intro h i k hundef hd
  have hi : i < ps.length := length_reorder σ ▸ hd.lt
  obtain ⟨k', hk', hglobal⟩ := hloc h _ k ((undefined_reorder σ).mp hundef)
    ((defines_reorder σ (j := ⟨i, hi⟩)).mp hd)
  exact ⟨k', hk', (defines_reorder σ (j := ⟨i, hi⟩)).mpr hglobal⟩

theorem reorder_refl : reorder ps (Equiv.refl _) = ps := by
  simp [reorder]

end

/-! ## Where no local definition gets in the way -/

variable {ps : List ParsedPax} {h : UInt64} {i k : Nat}

theorem Defines.binding_eq {b b' : SymBinding}
    (hd : Defines ps h i k b) (hd' : Defines ps h i k b') : b = b' := by
  obtain ⟨p, e, hp, he, -, -, rfl⟩ := hd
  obtain ⟨p', e', hp', he', -, -, rfl⟩ := hd'
  obtain rfl := Option.some.inj (hp.symm.trans hp')
  obtain rfl := Option.some.inj (he.symm.trans he')
  rfl

theorem symbolTable_not_local (hloc : LocalsBehindGlobals ps) (hundef : Undefined ps h)
    (hp : (symbolTable ps).by_hash h = some (i, k)) :
    ∃ b, Defines ps h i k b ∧ b ≠ .Local := by
  obtain ⟨b, hd, hfirst⟩ := symbolTable_spec hp
  refine ⟨b, hd, ?_⟩
  rintro rfl
  obtain ⟨k', hk', hglobal⟩ := hloc h i k hundef hd
  rcases (hfirst i k' .Global hglobal (by decide)).2 with heq | hbefore
  · cases heq
  · rcases hbefore with hlt | ⟨-, hlt⟩
    · exact Nat.lt_irrefl _ hlt
    · dsimp only at hlt
      omega

theorem symbolTable_global (hone : OneGlobal ps)
    (hloc : LocalsBehindGlobals ps) (hundef : Undefined ps h)
    (hd : Defines ps h i k .Global) : (symbolTable ps).by_hash h = some (i, k) := by
  obtain ⟨⟨i', k'⟩, hp⟩ :=
    Option.isSome_iff_exists.mp ((symbolTable_isSome_iff ps h).mpr ⟨i, k, _, hd⟩)
  obtain ⟨b, hd', hfirst⟩ := symbolTable_spec hp
  obtain ⟨b', hd'', hvis⟩ := symbolTable_not_local hloc hundef hp
  obtain rfl := hd'.binding_eq hd''
  have hstrong := (hfirst i k .Global hd (by decide)).1
  cases b with
  | Local => exact absurd rfl hvis
  | Weak => exact absurd rfl hstrong
  | Global => rw [hp, hone h i k i' k' hd hd']

theorem answered_iff (hloc : LocalsBehindGlobals ps) : Answered ps ↔
      (∀ h, Undefined ps h → Visible ps h) ∧ ∀ h, Imported ps h → Exported ps h := by
  constructor
  · intro ha
    refine ⟨?_, ha.capabilities⟩
    intro h hundef
    obtain ⟨⟨i, k⟩, hp⟩ :=
      Option.isSome_iff_exists.mp ((symbolTable_isSome_iff ps h).mpr (ha.symbols h hundef))
    obtain ⟨b, hd, hb⟩ := symbolTable_not_local hloc hundef hp
    exact ⟨i, k, b, hd, hb⟩
  · rintro ⟨hsym, hcap⟩
    refine ⟨?_, hcap⟩
    intro h hundef
    obtain ⟨i, k, b, hd, -⟩ := hsym h hundef
    exact ⟨i, k, b, hd⟩

theorem respects_of_locals (hone : OneGlobal ps)
    (hread : ∀ p ∈ ps, p.TablesReadable) (hloc : LocalsBehindGlobals ps) : RespectsBinding ps := by
  obtain ⟨link, ds, hresolve, hsome, htable⟩ := resolve_inputs_ends hread
  refine ⟨symbolTable ps, link, ds,
    index_symbols_eq (fun p hp => (hread p hp).symtab) 0 _, hresolve, ?_⟩
  constructor
  · intro h hundef
    rw [symbolTable_isSome_iff]
    constructor
    · intro hdef
      obtain ⟨⟨i, k⟩, hp⟩ := Option.isSome_iff_exists.mp ((symbolTable_isSome_iff ps h).mpr hdef)
      obtain ⟨b, hd, hb⟩ := symbolTable_not_local hloc hundef hp
      exact ⟨i, k, b, hd, hb⟩
    · rintro ⟨i, k, b, hd, -⟩
      exact ⟨i, k, b, hd⟩
  · exact fun h i k hundef hp => symbolTable_not_local hloc hundef hp
  · exact fun h i k hundef hd => symbolTable_global hone hloc hundef hd
  · rw [hsome, answered_iff hloc]
  · exact fun l hl => (htable l hl).1

theorem sameResolution_of_respects (σ : Perm (Fin ps.length))
    (hps : RespectsBinding ps) (hqs : RespectsBinding (reorder ps σ)) : SameResolution ps σ := by
  intro t t' link link' ds ds' ht ht' hlink hlink'
  obtain ⟨t₁, link₁, ds₁, h₁, hr₁, hps⟩ := hps
  obtain ⟨t₂, link₂, ds₂, h₂, hr₂, hqs⟩ := hqs
  cases ht.symm.trans h₁
  cases ht'.symm.trans h₂
  cases hlink.symm.trans hr₁
  cases hlink'.symm.trans hr₂
  constructor
  · rw [hps.succeeds, hqs.succeeds]
    simp only [undefined_reorder, visible_reorder, imported_reorder, exported_reorder]
  · intro h j k hundef hd
    have hleft := hqs.global h j k ((undefined_reorder σ).mpr hundef) ((defines_reorder σ).mpr hd)
    have hright := hps.global h (σ j) k hundef hd
    exact iff_of_true hleft hright

/-- With the input of a local definition in front, the table shows that
definition unless a global one precedes it. -/
theorem locals_of_respects (hall : ∀ σ, RespectsBinding (reorder ps σ)) :
    LocalsBehindGlobals ps := by
  intro h i k hundef hd
  have hi := hd.lt
  let first : Fin ps.length := ⟨0, by omega⟩
  let σ : Perm (Fin ps.length) := swap first ⟨i, hi⟩
  have hσ : σ first = ⟨i, hi⟩ := Equiv.swap_apply_left _ _
  have hlocal : Defines (reorder ps σ) h 0 k .Local :=
    (defines_reorder σ (j := first)).mpr (by rw [hσ]; exact hd)
  obtain ⟨t, link, ds, ht, hresolve, hresp⟩ := hall σ
  have hread := tablesReadable_of_resolve hresolve
  have htable : t = symbolTable (reorder ps σ) := by
    have := ht.symm.trans (index_symbols_eq (fun p hp => (hread p hp).symtab) 0 _)
    exact Except.ok.inj this
  subst htable
  obtain ⟨⟨i', k'⟩, hp⟩ :=
    Option.isSome_iff_exists.mp ((symbolTable_isSome_iff _ h).mpr ⟨0, k, _, hlocal⟩)
  obtain ⟨b, hd', hfirst⟩ := symbolTable_spec hp
  obtain ⟨b', hd'', hvis⟩ := hresp.visible h i' k' ((undefined_reorder σ).mpr hundef) hp
  obtain rfl := hd'.binding_eq hd''
  obtain ⟨hstrong, hplace⟩ := hfirst 0 k .Local hlocal (by decide)
  have hglobal : b = .Global := by
    cases b with
    | Local => exact absurd rfl hvis
    | Weak => exact absurd rfl hstrong
    | Global => rfl
  subst hglobal
  rcases hplace with heq | hbefore
  · cases heq
  · rcases hbefore with hlt | ⟨hzero, hlt⟩
    · exact absurd hlt (Nat.not_lt_zero _)
    · refine ⟨k', hlt, ?_⟩
      dsimp only at hzero
      subst hzero
      have := (defines_reorder σ (j := first)).mp hd'
      rwa [hσ] at this

/-- In every order of the inputs the resolution respects the bindings and is
the same, exactly when the tables can be read and every local definition of an
undefined symbol stands behind a global one in its own table. -/
theorem resolution_respects_binding_iff {ps : List ParsedPax} (hone : OneGlobal ps) :
    (∀ σ : Equiv.Perm (Fin ps.length), RespectsBinding (reorder ps σ) ∧ SameResolution ps σ) ↔
      (∀ p ∈ ps, p.TablesReadable) ∧ LocalsBehindGlobals ps := by
  constructor
  · intro hall
    refine ⟨?_, locals_of_respects fun σ => (hall σ).1⟩
    obtain ⟨t, link, ds, -, hresolve, -⟩ := (hall (Equiv.refl _)).1
    rw [reorder_refl] at hresolve
    exact tablesReadable_of_resolve hresolve
  · rintro ⟨hread, hloc⟩ σ
    have hqs : RespectsBinding (reorder ps σ) :=
      respects_of_locals (oneGlobal_reorder σ hone) (fun p hp => hread p ((mem_reorder σ).mp hp))
        (localsBehindGlobals_reorder σ hloc)
    exact ⟨hqs, sameResolution_of_respects σ (respects_of_locals hone hread hloc) hqs⟩

/-! ## Two files -/

/-- A file with one section, the symbol table, behind its header. -/
def symbolFile (path : String) (entry : SymEntry) : ParsedPax :=
  let header := { PaxHeader.new .X86_64 with section_table_offset := 96, section_count := 1 }
  let table : SectionTable := ⟨[⟨.Symtab, 0, 160, 48, 0, 8, ".symtab"⟩]⟩
  ⟨path, header, table, header.to_bytes ++ (table.to_bytes ++ SymTab.to_bytes ⟨[entry]⟩)⟩

theorem symbolFile_readable (path : String) (entry : SymEntry) :
    (symbolFile path entry).TablesReadable := by
  have hnone : ∀ ty, ty ≠ .Symtab → (symbolFile path entry).firstOf ty = none := by
    intro ty hty
    simp [ParsedPax.firstOf, symbolFile, Ne.symm hty]
  constructor
  · intro s hs
    simp only [ParsedPax.firstOf, symbolFile, List.find?_cons, decide_true, Option.some.injEq] at hs
    subst hs
    refine .inr ⟨by decide, ?_⟩
    simp [symbolFile]
    omega
  · intro s hs
    rw [hnone .Exports (by decide)] at hs
    cases hs
  · intro s hs
    rw [hnone .Imports (by decide)] at hs
    cases hs

/-- The symbol of hash 7, in a section or undefined. -/
def symbol7 (section_index : UInt32) (binding : SymBinding) : SymEntry :=
  ⟨0, 0, section_index, binding, .Default, 0, 7⟩

/-- One file lacks the symbol, the other defines it. -/
def wantsAndHas (binding : SymBinding) : List ParsedPax :=
  [symbolFile "wants.pax" (symbol7 SHN_UNDEF .Global), symbolFile "has.pax" (symbol7 0 binding)]

theorem symbols_wants :
    symbols (symbolFile "wants.pax" (symbol7 SHN_UNDEF .Global)) = [symbol7 SHN_UNDEF .Global] := by
  decide +kernel

variable (binding : SymBinding)

theorem symbols_has : symbols (symbolFile "has.pax" (symbol7 0 binding)) = [symbol7 0 binding] := by
  cases binding <;> decide +kernel

theorem undefined_wantsAndHas : Undefined (wantsAndHas binding) 7 :=
  ⟨_, List.mem_cons_self, symbol7 SHN_UNDEF .Global, by rw [symbols_wants]; simp, rfl, rfl⟩

theorem defines_wantsAndHas {binding b : SymBinding} :
    Defines (wantsAndHas binding) h i k b ↔ i = 1 ∧ k = 0 ∧ h = 7 ∧ b = binding := by
  constructor
  · rintro ⟨p, e, hp, he, hdef, rfl, rfl⟩
    match i with
    | 0 =>
      obtain rfl := Option.some.inj hp
      rw [symbols_wants] at he
      obtain rfl := List.mem_singleton.mp (List.mem_of_getElem? he)
      exact absurd rfl hdef
    | 1 =>
      obtain rfl := Option.some.inj hp
      rw [symbols_has] at he
      obtain rfl := List.mem_singleton.mp (List.mem_of_getElem? he)
      have hk : k < [symbol7 0 binding].length := (List.getElem?_eq_some_iff.mp he).1
      exact ⟨rfl, by simpa using hk, rfl, rfl⟩
    | i + 2 => cases hp
  · rintro ⟨rfl, rfl, rfl, rfl⟩
    have hdefined : (0 : UInt32) ≠ SHN_UNDEF := by decide
    exact ⟨_, symbol7 0 b, rfl, by rw [symbols_has]; rfl, hdefined, rfl, rfl⟩

theorem oneGlobal_wantsAndHas : OneGlobal (wantsAndHas binding) := by
  intro h i k i' k' hd hd'
  obtain ⟨rfl, rfl, -⟩ := defines_wantsAndHas.mp hd
  obtain ⟨rfl, rfl, -⟩ := defines_wantsAndHas.mp hd'
  rfl

/-- A global definition in the second file answers the first one. -/
theorem resolution_respects_binding_global :
    OneGlobal (wantsAndHas .Global) ∧
      ∀ σ, RespectsBinding (reorder (wantsAndHas .Global) σ) ∧
        SameResolution (wantsAndHas .Global) σ := by
  have hone := oneGlobal_wantsAndHas .Global
  refine ⟨hone, (resolution_respects_binding_iff hone).mpr ⟨?_, ?_⟩⟩
  · intro p hp
    simp only [wantsAndHas, List.mem_cons, List.not_mem_nil, or_false] at hp
    rcases hp with rfl | rfl
    · exact symbolFile_readable _ _
    · exact symbolFile_readable _ _
  · intro h i k _ hd
    cases (defines_wantsAndHas.mp hd).2.2.2

/-- So does a local one, which no other file should see. -/
theorem local_definition_resolves :
    OneGlobal (wantsAndHas .Local) ∧ Undefined (wantsAndHas .Local) 7 ∧
      ¬ Visible (wantsAndHas .Local) 7 ∧
      (symbolTable (wantsAndHas .Local)).by_hash 7 = some (1, 0) ∧
      ¬ ∀ σ, RespectsBinding (reorder (wantsAndHas .Local) σ) ∧
        SameResolution (wantsAndHas .Local) σ := by
  have hlocal : Defines (wantsAndHas .Local) 7 1 0 .Local :=
    defines_wantsAndHas.mpr ⟨rfl, rfl, rfl, rfl⟩
  refine ⟨oneGlobal_wantsAndHas .Local, undefined_wantsAndHas .Local, ?_, ?_, ?_⟩
  · rintro ⟨i, k, b, hd, hb⟩
    exact hb (defines_wantsAndHas.mp hd).2.2.2
  · obtain ⟨⟨i, k⟩, hp⟩ :=
      Option.isSome_iff_exists.mp ((symbolTable_isSome_iff _ 7).mpr ⟨1, 0, _, hlocal⟩)
    obtain ⟨b, hd, -⟩ := symbolTable_spec hp
    obtain ⟨hi, hk, -⟩ := defines_wantsAndHas.mp hd
    dsimp only at hi hk
    rw [hp, hi, hk]
  · intro hall
    obtain ⟨k', hk', -⟩ := locals_of_respects (fun σ => (hall σ).1) 7 1 0
      (undefined_wantsAndHas .Local) hlocal
    exact Nat.not_lt_zero _ hk'

end paideia_as_linker
