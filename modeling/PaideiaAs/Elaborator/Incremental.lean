-- The incremental elaboration engine: documents, parsed files and elaborated
-- definitions that are kept between queries, and what is thrown away when a
-- document changes (`incremental.rs`).
import PaideiaAs.Lib.Assoc

namespace paideia_as_elaborator.incremental

/-! ## The engine -/

structure DefinitionKey where
  uri : String
  name : String
  deriving DecidableEq

/-- The key that stands for a whole file. -/
def module_key (uri : String) : DefinitionKey := ⟨uri, "<module>"⟩

structure DocumentSnapshot (η : Type) where
  rev : Nat
  content_hash : η
  text : String

structure ParsedSnapshot where
  rev : Nat
  deps_from : List String
  source_len : Nat

structure ElaboratedSnapshot where
  rev : Nat
  deps_from : List DefinitionKey
  diagnostics_count : Nat

structure QueryStats where
  parse_calls : Nat
  elab_calls : Nat
  hits : Nat
  misses : Nat

/-- The maps are keyed by URI or by definition. The position index is left out:
none of the queries reads it. -/
structure QueryEngine (η : Type) where
  revision : Nat
  documents : List (String × DocumentSnapshot η)
  parsed : List (String × ParsedSnapshot)
  elaborated_definitions : List (DefinitionKey × ElaboratedSnapshot)
  stats : QueryStats

section

variable {η : Type}

namespace QueryEngine

def new : QueryEngine η := ⟨0, [], [], [], ⟨0, 0, 0, 0⟩⟩

/-- Removes the entries that list the whole file as a dependency. -/
def invalidate_cascade (e : QueryEngine η) (uri : String) : QueryEngine η :=
  let keys_to_remove := (e.elaborated_definitions.filter fun entry =>
    entry.2.deps_from.contains (module_key uri)).map (·.1)
  { e with elaborated_definitions := Assoc.without e.elaborated_definitions keys_to_remove }

def set_document [DecidableEq η] (content_hash : String → η) (e : QueryEngine η)
    (uri text : String) : QueryEngine η :=
  let new_hash := content_hash text
  if (e.documents.lookup uri).any (·.content_hash = new_hash) then e
  else
    let revision := e.revision + 1
    let e := { e with
      revision
      documents := Assoc.insert e.documents uri ⟨revision, new_hash, text⟩
      parsed := Assoc.without e.parsed [uri] }
    e.invalidate_cascade uri

/-- The cached parse of a document that has not changed since. -/
def parsed_if_fresh (e : QueryEngine η) (uri : String) : Option ParsedSnapshot :=
  match e.parsed.lookup uri, e.documents.lookup uri with
  | some parsed, some doc => if parsed.rev = doc.rev then some parsed else none
  | _, _ => none

def query_parse (e : QueryEngine η) (uri : String) : QueryEngine η × Option ParsedSnapshot :=
  let e := { e with stats.parse_calls := e.stats.parse_calls + 1 }
  match e.parsed_if_fresh uri with
  | some parsed => ({ e with stats.hits := e.stats.hits + 1 }, some parsed)
  | none =>
    let e := { e with stats.misses := e.stats.misses + 1 }
    match e.documents.lookup uri with
    | none => (e, none)
    | some doc =>
      let parsed := ⟨doc.rev, [], doc.text.utf8ByteSize⟩
      ({ e with parsed := Assoc.insert e.parsed uri parsed }, some parsed)

/-- A dependency was elaborated again after the snapshot. -/
def deps_stale (e : QueryEngine η) (snap : ElaboratedSnapshot) : Bool :=
  snap.deps_from.any fun dep_key =>
    (e.elaborated_definitions.lookup dep_key).any fun dep_elab => snap.rev < dep_elab.rev

/-- The cached elaboration that a query answers with. -/
def elab_if_fresh (e : QueryEngine η) (key : DefinitionKey) : Option ElaboratedSnapshot :=
  (e.elaborated_definitions.lookup key).filter fun snap => !e.deps_stale snap

/-- On a miss a snapshot without dependencies is stored, for the caller to
replace. -/
def query_elab_snapshot (e : QueryEngine η) (key : DefinitionKey) : QueryEngine η × ElaboratedSnapshot :=
  let e := { e with stats.elab_calls := e.stats.elab_calls + 1 }
  match e.elab_if_fresh key with
  | some snap => ({ e with stats.hits := e.stats.hits + 1 }, snap)
  | none =>
    let elaborated : ElaboratedSnapshot := ⟨e.revision, [], 0⟩
    ({ e with
        stats.misses := e.stats.misses + 1
        elaborated_definitions := Assoc.insert e.elaborated_definitions key elaborated },
      elaborated)

/-- The caller puts its own result in the map. -/
def store (e : QueryEngine η) (key : DefinitionKey) (snap : ElaboratedSnapshot) : QueryEngine η :=
  { e with elaborated_definitions := Assoc.insert e.elaborated_definitions key snap }

end QueryEngine

/-! ## What a query answers with -/

/-- Whether the query answers from the cache, by the count of the hits. -/
def Hit (e : QueryEngine η) (key : DefinitionKey) : Prop :=
  (e.query_elab_snapshot key).1.stats.hits = e.stats.hits + 1

instance (e : QueryEngine η) (key : DefinitionKey) : Decidable (Hit e key) :=
  inferInstanceAs (Decidable (_ = _))

/-- The count of the calls plays no part in the answer. -/
theorem query_elab_eq (e : QueryEngine η) (key : DefinitionKey) :
    e.query_elab_snapshot key = match e.elab_if_fresh key with
      | some snap =>
        ({ e with stats := { e.stats with
            elab_calls := e.stats.elab_calls + 1
            hits := e.stats.hits + 1 } }, snap)
      | none =>
        ({ e with
            stats := { e.stats with
              elab_calls := e.stats.elab_calls + 1
              misses := e.stats.misses + 1 }
            elaborated_definitions :=
              Assoc.insert e.elaborated_definitions key ⟨e.revision, [], 0⟩ },
          ⟨e.revision, [], 0⟩) := rfl

theorem hit_iff (e : QueryEngine η) (key : DefinitionKey) :
    Hit e key ↔ (e.elab_if_fresh key).isSome := by
  unfold Hit
  rw [query_elab_eq]
  cases e.elab_if_fresh key <;> simp

variable {e : QueryEngine η} {key : DefinitionKey}

/-- The answer from the cache is the entry of the key. -/
theorem lookup_of_hit (h : Hit e key) :
    e.elaborated_definitions.lookup key = some (e.query_elab_snapshot key).2 := by
  obtain ⟨snap, hsnap⟩ := Option.isSome_iff_exists.mp ((hit_iff e key).mp h)
  rw [query_elab_eq, hsnap]
  unfold QueryEngine.elab_if_fresh at hsnap
  exact Option.eq_some_of_filter_eq_some hsnap

theorem query_elab_of_hit (h : Hit e key) : (e.query_elab_snapshot key).1.documents = e.documents ∧
      (e.query_elab_snapshot key).1.elaborated_definitions = e.elaborated_definitions := by
  obtain ⟨snap, hsnap⟩ := Option.isSome_iff_exists.mp ((hit_iff e key).mp h)
  rw [query_elab_eq, hsnap]
  exact ⟨rfl, rfl⟩

theorem query_elab_of_miss (h : ¬ Hit e key) :
    (e.query_elab_snapshot key).1.documents = e.documents ∧
      (e.query_elab_snapshot key).1.elaborated_definitions
        = Assoc.insert e.elaborated_definitions key ⟨e.revision, [], 0⟩ := by
  rw [hit_iff, Option.not_isSome_iff_eq_none] at h
  rw [query_elab_eq, h]
  exact ⟨rfl, rfl⟩

theorem query_parse_keeps (e : QueryEngine η) (uri : String) :
    (e.query_parse uri).1.documents = e.documents ∧
      (e.query_parse uri).1.elaborated_definitions = e.elaborated_definitions := by
  unfold QueryEngine.query_parse
  dsimp only
  split
  · exact ⟨rfl, rfl⟩
  · split <;> exact ⟨rfl, rfl⟩

/-- The cascade leaves no entry that lists the whole file. -/
theorem lookup_cascade {uri : String} {snap : ElaboratedSnapshot}
    (h : (e.invalidate_cascade uri).elaborated_definitions.lookup key = some snap) :
    e.elaborated_definitions.lookup key = some snap ∧ module_key uri ∉ snap.deps_from := by
  unfold QueryEngine.invalidate_cascade at h
  dsimp only at h
  rw [Assoc.lookup_without] at h
  split at h
  · cases h
  · rename_i hkey
    refine ⟨h, fun hmem => hkey ?_⟩
    apply List.mem_map.mpr
    exact ⟨(key, snap), List.mem_filter.mpr ⟨Assoc.mem_of_lookup h, by simpa using hmem⟩, rfl⟩

/-! ## Sessions -/

inductive Call where
  | set_document (uri text : String)
  | query_parse (uri : String)
  | query_elab_snapshot (key : DefinitionKey)
  | store (key : DefinitionKey) (snap : ElaboratedSnapshot)

/-- An engine with what its clients did: the text of each document, how many times
it changed, and the counts as they were when a snapshot was stored. -/
structure Session (η : Type) where
  engine : QueryEngine η
  sent : String → Option String
  edits : String → Nat
  stored : DefinitionKey → String → Nat

section

variable [DecidableEq η] (content_hash : String → η)

namespace Session

def new : Session η := ⟨.new, fun _ => none, fun _ => 0, fun _ _ => 0⟩

def step (s : Session η) : Call → Session η
  | .set_document uri text =>
    let engine := s.engine.set_document content_hash uri text
    if s.sent uri = some text then { s with engine }
    else { s with
      engine
      sent := Function.update s.sent uri (some text)
      edits := Function.update s.edits uri (s.edits uri + 1) }
  | .query_parse uri => { s with engine := (s.engine.query_parse uri).1 }
  | .query_elab_snapshot key =>
    let engine := (s.engine.query_elab_snapshot key).1
    if Hit s.engine key then { s with engine }
    else { s with engine, stored := Function.update s.stored key s.edits }
  | .store key snap =>
    { s with engine := s.engine.store key snap, stored := Function.update s.stored key s.edits }

def run (s : Session η) (calls : List Call) : Session η := calls.foldl (step content_hash) s

/-- The file of the definition and the files of the definitions it depends on. -/
def files (key : DefinitionKey) (snap : ElaboratedSnapshot) : List String :=
  key.uri :: snap.deps_from.map (·.uri)

/-- No document of the answer's files changed since it was stored. -/
def Fresh (s : Session η) (key : DefinitionKey) : Prop :=
  Hit s.engine key → ∀ uri ∈ files key (s.engine.query_elab_snapshot key).2, s.edits uri = s.stored key uri

/-- A changed document has another hash, and every snapshot that is about it lists
the whole file. -/
def Clears (s : Session η) : Call → Prop
  | .set_document uri text =>
    s.sent uri = some text ∨
      (∀ old, s.sent uri = some old → content_hash old ≠ content_hash text) ∧
      ∀ key snap, s.engine.elaborated_definitions.lookup key = some snap → uri ∈ files key snap →
        module_key uri ∈ snap.deps_from
  | _ => True

/-- Every call of the run clears what it makes stale. -/
def RunClears (s : Session η) : List Call → Prop
  | [] => True
  | c :: calls => s.Clears content_hash c ∧ (s.step content_hash c).RunClears calls

end Session

/-! ## What every step keeps -/

namespace Session

variable {content_hash} {s : Session η} {key : DefinitionKey} {snap : ElaboratedSnapshot}
  {uri text : String}

/-- The engine holds the texts that were sent, and nothing that it holds is about a
document that changed. -/
structure Kept (content_hash : String → η) (s : Session η) : Prop where
  texts : ∀ uri, (s.engine.documents.lookup uri).map (·.text) = s.sent uri
  hashes : ∀ uri doc, s.engine.documents.lookup uri = some doc →
    doc.content_hash = content_hash doc.text
  fresh : ∀ key snap, s.engine.elaborated_definitions.lookup key = some snap →
    ∀ uri ∈ files key snap, s.edits uri = s.stored key uri

omit [DecidableEq η] in
/-- A new entry is fresh, and the others stay as they are. -/
theorem Kept.fresh_insert (h : s.Kept content_hash) {key' : DefinitionKey}
    {snap' : ElaboratedSnapshot}
    (hlook : (Assoc.insert s.engine.elaborated_definitions key snap).lookup key' = some snap')
    (hu : uri ∈ files key' snap') : s.edits uri = Function.update s.stored key s.edits key' uri := by
  rw [Assoc.lookup_insert] at hlook
  split at hlook
  · rename_i heq
    rw [heq, Function.update_self]
  · rename_i hne
    rw [Function.update_of_ne hne]
    exact h.fresh key' _ hlook uri hu

theorem Kept.set_same (h : s.Kept content_hash) (hsent : s.sent uri = some text) :
    s.engine.set_document content_hash uri text = s.engine := by
  have htext := h.texts uri
  rw [hsent] at htext
  obtain ⟨doc, hdoc, rfl⟩ := Option.map_eq_some_iff.mp htext
  unfold QueryEngine.set_document
  have hany : (s.engine.documents.lookup uri).any (·.content_hash = content_hash doc.text) = true := by
    rw [hdoc]
    simpa using h.hashes uri doc hdoc
  simp only [hany, if_true]

theorem Kept.set_changed (h : s.Kept content_hash)
    (hhash : ∀ old, s.sent uri = some old → content_hash old ≠ content_hash text) :
    ∃ rev, (s.engine.set_document content_hash uri text).documents
        = Assoc.insert s.engine.documents uri ⟨rev, content_hash text, text⟩ ∧
      (s.engine.set_document content_hash uri text).elaborated_definitions
        = (s.engine.invalidate_cascade uri).elaborated_definitions := by
  have hany : (s.engine.documents.lookup uri).any (·.content_hash = content_hash text) = false := by
    cases hdoc : s.engine.documents.lookup uri with
    | none => rfl
    | some doc =>
      have htext := h.texts uri
      rw [hdoc] at htext
      have := hhash doc.text htext.symm
      simpa [h.hashes uri doc hdoc] using this
  unfold QueryEngine.set_document
  simp only [hany, Bool.false_eq_true, if_false]
  exact ⟨_, rfl, rfl⟩

omit [DecidableEq η] in
theorem Kept.new : (Session.new : Session η).Kept content_hash where
  texts _ := rfl
  hashes _ _ h := by cases h
  fresh _ _ h := by cases h

theorem Kept.step (h : s.Kept content_hash) (c : Call) (hc : s.Clears content_hash c) :
    (s.step content_hash c).Kept content_hash := by
  cases c with
  | query_parse uri =>
    obtain ⟨hdocs, helaborated⟩ := query_parse_keeps s.engine uri
    refine ⟨?_, ?_, ?_⟩
    · intro u
      show ((s.engine.query_parse uri).1.documents.lookup u).map _ = _
      rw [hdocs]
      exact h.texts u
    · intro u doc hdoc
      replace hdoc : (s.engine.query_parse uri).1.documents.lookup u = some doc := hdoc
      rw [hdocs] at hdoc
      exact h.hashes u doc hdoc
    · intro key snap hlook
      replace hlook : (s.engine.query_parse uri).1.elaborated_definitions.lookup key = _ := hlook
      rw [helaborated] at hlook
      exact h.fresh key snap hlook
  | store key snap => exact ⟨h.texts, h.hashes, fun _ _ hlook _ hu => h.fresh_insert hlook hu⟩
  | query_elab_snapshot key =>
    unfold Session.step
    dsimp only
    split
    · rename_i hhit
      obtain ⟨hdocs, helaborated⟩ := query_elab_of_hit hhit
      refine ⟨?_, ?_, ?_⟩
      · simpa only [hdocs] using h.texts
      · simpa only [hdocs] using h.hashes
      · simpa only [helaborated] using h.fresh
    · rename_i hmiss
      obtain ⟨hdocs, helaborated⟩ := query_elab_of_miss hmiss
      refine ⟨?_, ?_, ?_⟩
      · simpa only [hdocs] using h.texts
      · simpa only [hdocs] using h.hashes
      · intro key' snap' hlook u hu
        rw [helaborated] at hlook
        exact h.fresh_insert hlook hu
  | set_document uri text =>
    unfold Session.step
    dsimp only
    split
    · rename_i hsent
      rw [h.set_same hsent]
      exact ⟨h.texts, h.hashes, h.fresh⟩
    · rename_i hsent
      obtain ⟨hhash, hlists⟩ := hc.resolve_left hsent
      obtain ⟨rev, hdocs, helaborated⟩ := h.set_changed hhash
      refine ⟨?_, ?_, ?_⟩
      · intro u
        dsimp only
        rw [hdocs, Assoc.lookup_insert, Function.update_apply]
        split
        · rfl
        · exact h.texts u
      · intro u doc hdoc
        dsimp only at hdoc
        rw [hdocs, Assoc.lookup_insert] at hdoc
        split at hdoc
        · cases hdoc
          rfl
        · exact h.hashes u doc hdoc
      · intro key snap hlook u hu
        dsimp only at hlook
        rw [helaborated] at hlook
        obtain ⟨hold, hunlisted⟩ := lookup_cascade hlook
        have hne : u ≠ uri := by
          rintro rfl
          exact hunlisted (hlists key snap hold hu)
        dsimp only
        rw [Function.update_of_ne hne]
        exact h.fresh key snap hold u hu

theorem Kept.run (h : s.Kept content_hash) {calls : List Call} (hc : s.RunClears content_hash calls) :
    (s.run content_hash calls).Kept content_hash := by
  induction calls generalizing s with
  | nil => exact h
  | cons c calls ih => exact ih (h.step c hc.1) hc.2

omit [DecidableEq η] in
theorem Kept.answers_fresh (h : s.Kept content_hash) (key : DefinitionKey) : s.Fresh key := by
  intro hhit uri hu
  exact h.fresh key _ (lookup_of_hit hhit) uri hu

end Session

/-- In every run in which a changed document has another hash, and in which every
snapshot about it lists the whole file, no query answers with a snapshot from
before a change. -/
theorem query_elab_never_stale (calls : List Call)
    (h : (Session.new : Session η).RunClears content_hash calls) (key : DefinitionKey) :
    (Session.new.run content_hash calls).Fresh key :=
  (Session.Kept.new.run h).answers_fresh key

theorem Session.clears_of_entries {s : Session η} {uri text : String}
    (hhash : (s.sent uri).all fun old => !(decide (content_hash old = content_hash text)))
    (hlists : ∀ entry ∈ s.engine.elaborated_definitions, uri ∈ files entry.1 entry.2 →
      module_key uri ∈ entry.2.deps_from) :
    s.Clears content_hash (.set_document uri text) := by
  refine .inr ⟨?_, ?_⟩
  · intro old hold
    rw [hold] at hhash
    simpa using hhash
  · intro key snap hlook
    exact hlists (key, snap) (Assoc.mem_of_lookup hlook)

/-- The snapshot lists what the stored snapshots of its dependencies list. -/
def ListsAll (e : QueryEngine η) (snap : ElaboratedSnapshot) : Prop :=
  ∀ dep ∈ snap.deps_from, ∀ dep_elab ∈ e.elaborated_definitions.lookup dep,
    ∀ key ∈ dep_elab.deps_from, key ∈ snap.deps_from

end

end

/-- A file that lists itself, and is elaborated again after it changed. -/
theorem elaborated_again_is_fresh :
    ((Session.new.run id [.set_document "a" "x", .store ⟨"a", "main"⟩ ⟨1, [module_key "a"], 0⟩,
      .set_document "a" "y", .query_elab_snapshot ⟨"a", "main"⟩]).Fresh ⟨"a", "main"⟩) := by
  apply query_elab_never_stale id
  refine ⟨?_, trivial, ?_, trivial, trivial⟩
  all_goals exact Session.clears_of_entries id (by decide) (by decide)

/-- The snapshot that a miss stores lists nothing, and a snapshot that lists a
definition of another file stays when that file changes. -/
theorem query_elab_stale :
    ¬ ((Session.new.run id [.set_document "a" "x", .query_elab_snapshot (module_key "a"),
        .set_document "a" "y"]).Fresh (module_key "a")) ∧
      ListsAll (Session.new.run id [.set_document "a" "x", .set_document "b" "x",
        .store ⟨"b", "f"⟩ ⟨2, [], 0⟩]).engine ⟨2, [⟨"b", "f"⟩], 0⟩ ∧
      ¬ ((Session.new.run id [.set_document "a" "x", .set_document "b" "x",
        .store ⟨"b", "f"⟩ ⟨2, [], 0⟩, .store ⟨"a", "main"⟩ ⟨2, [⟨"b", "f"⟩], 0⟩,
        .set_document "b" "y"]).Fresh ⟨"a", "main"⟩) := by
  refine ⟨fun h => ?_, ?_, fun h => ?_⟩
  · exact absurd (h (by decide) "a" (by decide)) (by decide)
  · unfold ListsAll
    decide
  · exact absurd (h (by decide) "b" (by decide)) (by decide)

end paideia_as_elaborator.incremental
