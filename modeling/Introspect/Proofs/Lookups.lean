import Introspect.Workspace
import Introspect.Proofs.Consistency
import Introspect.Proofs.NameIndex
import Mathlib.Data.Set.Card

/-! Lookups in a cache over any history of lookups, clears, switches and changes of the schema. With the
cache on, the first lookup of a type since the last clear decides which model all later ones get. With the
cache off, each lookup builds its own. -/
namespace Introspect

/-- How a lookup tells the type it is about. -/
inductive Query
  | byType (id : TypeId)
  | byName (name : String)

/-- A name stands for the type that has it at the time. -/
def Query.resolve : Query → Schema → Except Failure TypeId
  | .byType id, s => s.known id id.defaultName
  | .byName name, s => s.named name

/-- What can happen to a cache or to the schema that it builds models of. -/
inductive CacheStep
  | find (query : Query)
  | clear
  | setEnabled (enabled : Bool)
  | change (operation : Schema.Operation)

namespace CacheStep

def operation? : CacheStep → Option Schema.Operation
  | change operation => some operation
  | _ => none

def switch? : CacheStep → Option Bool
  | setEnabled enabled => some enabled
  | _ => none

theorem find_ne_clear (query : Query) : find query ≠ clear := by
  intro h
  cases h

end CacheStep

namespace Workspace

def cacheNamed (w : Workspace) (cache : String) : ModelCache := (w.caches.get? cache).getD {}

/-- Resolves the query and asks the cache for the model of the type. -/
def answer (w : Workspace) (cache : String) (query : Query) : Except Failure (Nat × Model) × Workspace :=
  match query.resolve w.schema with
  | .error f => (.error f, w)
  | .ok type => w.lookup cache type none

def advance (w : Workspace) (cache : String) : CacheStep → Workspace
  | .find query => (w.answer cache query).2
  | .clear => w.updateCache cache ModelCache.clear
  | .setEnabled enabled => w.updateCache cache (·.setEnabled enabled)
  | .change operation => { w with schema := operation.apply w.schema }

variable {w : Workspace} {cache : String} {query : Query} {type : TypeId} {c : ModelCache}

theorem answer_of_error {f : Failure} (h : query.resolve w.schema = .error f) :
    w.answer cache query = (.error f, w) := by
  rw [answer, h]

theorem answer_of_hit (h : query.resolve w.schema = .ok type) (hc : w.caches.get? cache = some c)
    (henabled : c.isEnabled = true) {found : Nat × Model} (hfound : c.stored.get? type = some found) :
    w.answer cache query = (.ok found, { w with lookups := w.lookups + 1 }) := by
  simp only [answer, h, lookup, hc, Option.getD_some, ModelCache.find, henabled, if_true, hfound,
    keepModel, Option.elim_none, Table.insert_of_get? hc]

theorem answer_of_disabled (h : query.resolve w.schema = .ok type) (hc : w.caches.get? cache = some c)
    (henabled : c.isEnabled = false) {m : Model} (hm : Model.build w.schema type c.options = .ok m) :
    w.answer cache query = (.ok (w.lookups, m), { w with lookups := w.lookups + 1 }) := by
  have hfind : c.find w.schema type w.lookups = .ok ((w.lookups, m), c) := by
    simp only [ModelCache.find, henabled, Bool.false_eq_true, if_false, hm]
    rfl
  simp only [answer, h, lookup, hc, Option.getD_some, hfind, keepModel, Option.elim_none,
    Table.insert_of_get? hc]

theorem answer_of_miss (h : query.resolve w.schema = .ok type) (hc : w.caches.get? cache = some c)
    (henabled : c.isEnabled = true) (hnone : c.stored.get? type = none) {m : Model}
    (hm : Model.build w.schema type c.options = .ok m) :
    w.answer cache query = (.ok (w.lookups, m), { w with
      caches := w.caches.insert cache { c with stored := c.stored.insert type (w.lookups, m) }
      lookups := w.lookups + 1 }) := by
  have hfind : c.find w.schema type w.lookups =
      .ok ((w.lookups, m), { c with stored := c.stored.insert type (w.lookups, m) }) := by
    simp only [ModelCache.find, henabled, if_true, hnone, hm]
    rfl
  simp only [answer, h, lookup, hc, Option.getD_some, hfind, keepModel, Option.elim_none]

theorem lookups_le_advance (w : Workspace) (cache : String) (step : CacheStep) :
    w.lookups ≤ (w.advance cache step).lookups := by
  cases step with
  | clear | setEnabled | change => exact le_rfl
  | find query =>
    change w.lookups ≤ (w.answer cache query).2.lookups
    unfold answer lookup
    split
    · exact le_rfl
    · dsimp only
      split
      · exact le_rfl
      · exact Nat.le_succ _

theorem lookups_of_answer {found : Nat × Model} (h : (w.answer cache query).1 = .ok found) :
    (w.answer cache query).2.lookups = w.lookups + 1 := by
  unfold answer lookup at h ⊢
  split at h
  · cases h
  · dsimp only at h ⊢
    split at h
    · cases h
    · rfl

end Workspace

/-- A cache as it is made. -/
structure CacheSetup where
  name : String
  options : ModelOptions := {}
  isEnabled : Bool := true

namespace CacheSetup

/-- The schema is a matter of the changes alone. -/
def schemaAfter (steps : List CacheStep) : Schema := .run (steps.filterMap CacheStep.operation?)

/-- The last switch counts. -/
def isEnabledAfter (c : CacheSetup) (steps : List CacheStep) : Bool :=
  steps.foldl (fun enabled step => step.switch?.getD enabled) c.isEnabled

def workspace (c : CacheSetup) : Workspace where
  caches := (∅ : Table String ModelCache).insert c.name { options := c.options, isEnabled := c.isEnabled }

def after (c : CacheSetup) (steps : List CacheStep) : Workspace :=
  steps.foldl (·.advance c.name ·) c.workspace

/-- Looked up at that point, with the cache on, the query is about the type. -/
def Asks (c : CacheSetup) (before : List CacheStep) (query : Query) (type : TypeId) : Prop :=
  c.isEnabledAfter before = true ∧ query.resolve (schemaAfter before) = .ok type

/-- The type has been looked up with the cache on, and the cache has not been cleared since. -/
def AskedSince (c : CacheSetup) (steps before : List CacheStep) (query : Query) (type : TypeId) : Prop :=
  ∃ rest, steps = before ++ .find query :: rest ∧ c.Asks before query type ∧ .clear ∉ rest

/-- No lookup of the type since the last clear comes before that one. -/
structure FirstAsked (c : CacheSetup) (steps before : List CacheStep) (query : Query) (type : TypeId) :
    Prop where
  asked : c.AskedSince steps before query type
  first : ∀ other query', c.AskedSince steps other query' type → before <+: other

/-- The stamp and the model with which the first lookup of the type was answered, built of the schema as
it was then. -/
def FirstAnswer (c : CacheSetup) (steps : List CacheStep) (type : TypeId) (found : Nat × Model) : Prop :=
  ∃ before query, c.FirstAsked steps before query type ∧
    ((c.after before).answer c.name query).1 = .ok found ∧ found.1 = (c.after before).lookups ∧
    Model.build (schemaAfter before) type c.options = .ok found.2

variable {c : CacheSetup} {steps before : List CacheStep} {step : CacheStep} {query : Query} {type : TypeId}

theorem after_append (c : CacheSetup) (steps rest : List CacheStep) :
    c.after (steps ++ rest) = rest.foldl (·.advance c.name ·) (c.after steps) :=
  List.foldl_append

theorem after_concat (c : CacheSetup) (steps : List CacheStep) (step : CacheStep) :
    c.after (steps ++ [step]) = (c.after steps).advance c.name step :=
  c.after_append steps [step]

theorem isEnabledAfter_concat (c : CacheSetup) (steps : List CacheStep) (step : CacheStep) :
    c.isEnabledAfter (steps ++ [step]) = step.switch?.getD (c.isEnabledAfter steps) :=
  List.foldl_append

theorem schemaAfter_concat (steps : List CacheStep) (step : CacheStep) :
    schemaAfter (steps ++ [step]) =
      step.operation?.elim (schemaAfter steps) (·.apply (schemaAfter steps)) := by
  rw [schemaAfter, List.filterMap_append, Schema.run, List.foldl_append]
  cases step <;> rfl

theorem indexed_schemaAfter (steps : List CacheStep) : (schemaAfter steps).Indexed :=
  Schema.indexed_run _

theorem lookups_le_after (c : CacheSetup) (steps rest : List CacheStep) :
    (c.after steps).lookups ≤ (c.after (steps ++ rest)).lookups := by
  rw [after_append]
  exact List.foldlRecOn (motive := fun w : Workspace => (c.after steps).lookups ≤ w.lookups) rest _
    le_rfl fun w h step _ => h.trans (w.lookups_le_advance c.name step)

theorem AskedSince.isPrefix (h : c.AskedSince steps before query type) : before <+: steps := by
  obtain ⟨rest, rfl, _⟩ := h
  exact List.prefix_append _ _

theorem askedSince_concat : c.AskedSince (steps ++ [step]) before query type ↔
    (step ≠ .clear ∧ c.AskedSince steps before query type) ∨
      (before = steps ∧ step = .find query ∧ c.Asks steps query type) := by
  constructor
  · rintro ⟨rest, hsteps, hasks, hclear⟩
    rcases List.eq_nil_or_concat rest with rfl | ⟨rest, last, rfl⟩
    · obtain ⟨rfl, hstep⟩ := List.append_inj' hsteps rfl
      exact Or.inr ⟨rfl, (List.cons.inj hstep).1, hasks⟩
    · have hsplit : steps ++ [step] = (before ++ .find query :: rest) ++ [last] := by
        rw [hsteps]
        simp
      obtain ⟨rfl, hlast⟩ := List.append_inj' hsplit rfl
      obtain rfl := (List.cons.inj hlast).1
      rw [List.concat_eq_append, List.mem_append, not_or] at hclear
      exact Or.inl ⟨fun h => hclear.2 (h ▸ List.mem_singleton_self _), rest, rfl, hasks, hclear.1⟩
  · rintro (⟨hstep, rest, rfl, hasks, hclear⟩ | ⟨rfl, rfl, hasks⟩)
    · refine ⟨rest ++ [step], by simp, hasks, ?_⟩
      rw [List.mem_append, not_or, List.mem_singleton]
      exact ⟨hclear, Ne.symm hstep⟩
    · exact ⟨[], rfl, hasks, List.not_mem_nil⟩

theorem not_askedSince_clear : ¬ c.AskedSince (steps ++ [.clear]) before query type := by
  rw [askedSince_concat]
  rintro (⟨h, _⟩ | ⟨_, h, _⟩)
  · exact h rfl
  · cases h

/-- Whatever happens next, short of a clear, the first lookup stays the first. -/
theorem FirstAsked.concat (h : c.FirstAsked steps before query type) (hstep : step ≠ .clear) :
    c.FirstAsked (steps ++ [step]) before query type where
  asked := askedSince_concat.2 (Or.inl ⟨hstep, h.asked⟩)
  first other query' hasked := by
    rcases askedSince_concat.1 hasked with ⟨_, hold⟩ | ⟨rfl, _⟩
    · exact h.first other query' hold
    · exact h.asked.isPrefix

/-- A lookup of a type that was not looked up before is the first one. -/
theorem Asks.firstAsked (h : c.Asks steps query type)
    (hnew : ∀ before query', ¬ c.AskedSince steps before query' type) :
    c.FirstAsked (steps ++ [.find query]) steps query type where
  asked := askedSince_concat.2 (Or.inr ⟨rfl, rfl, h⟩)
  first other query' hasked := by
    rcases askedSince_concat.1 hasked with ⟨_, hold⟩ | ⟨rfl, _⟩
    · exact absurd hold (hnew other query')
    · exact List.prefix_rfl

theorem FirstAnswer.concat {found : Nat × Model} (h : c.FirstAnswer steps type found)
    (hstep : step ≠ .clear) : c.FirstAnswer (steps ++ [step]) type found := by
  obtain ⟨before, query, hfirst, hanswer⟩ := h
  exact ⟨before, query, hfirst.concat hstep, hanswer⟩

theorem FirstAnswer.append {found : Nat × Model} (h : c.FirstAnswer steps type found)
    {rest : List CacheStep} (hclear : .clear ∉ rest) : c.FirstAnswer (steps ++ rest) type found := by
  induction rest using List.reverseRecOn with
  | nil => rwa [List.append_nil]
  | append_singleton rest step ih =>
    rw [List.mem_append, not_or, List.mem_singleton] at hclear
    rw [← List.append_assoc]
    exact (ih hclear.1).concat (Ne.symm hclear.2)

theorem FirstAnswer.unique {found found' : Nat × Model} (h : c.FirstAnswer steps type found)
    (h' : c.FirstAnswer steps type found') : found = found' := by
  obtain ⟨before, query, hfirst, hanswer, _⟩ := h
  obtain ⟨before', query', hfirst', hanswer', _⟩ := h'
  -- Neither comes before the other, so both are one and the same lookup.
  have hlength := (hfirst.first before' query' hfirst'.asked).length_le
  have hlength' := (hfirst'.first before query hfirst.asked).length_le
  obtain ⟨rest, hsteps, _⟩ := hfirst.asked
  obtain ⟨rest', hsteps', _⟩ := hfirst'.asked
  obtain ⟨rfl, htail⟩ := List.append_inj (hsteps.symm.trans hsteps') (le_antisymm hlength hlength')
  obtain rfl := CacheStep.find.inj (List.cons.inj htail).1
  exact Except.ok.inj (hanswer.symm.trans hanswer')

/-- What a cache holds after some steps: the first answers since the last clear, and nothing else. -/
structure Tracks (c : CacheSetup) (steps : List CacheStep) (cache : ModelCache) : Prop where
  options : cache.options = c.options
  isEnabled : cache.isEnabled = c.isEnabledAfter steps
  nodup : cache.stored.keys.Nodup
  sound : ∀ type found, cache.stored.get? type = some found → c.FirstAnswer steps type found
  complete : ∀ before query type, c.AskedSince steps before query type →
    cache.stored.contains type = true

namespace Tracks

variable {cache : ModelCache}

theorem new (c : CacheSetup) : c.Tracks [] { options := c.options, isEnabled := c.isEnabled } where
  options := rfl
  isEnabled := rfl
  nodup := List.nodup_nil
  sound _ _ h := nomatch h
  complete before query type := by
    rintro ⟨rest, hsteps, _⟩
    simp at hsteps

theorem clear (h : c.Tracks steps cache) : c.Tracks (steps ++ [.clear]) cache.clear where
  options := h.options
  isEnabled := by
    rw [isEnabledAfter_concat]
    exact h.isEnabled
  nodup := List.nodup_nil
  sound _ _ h := nomatch h
  complete before query type hasked := absurd hasked not_askedSince_clear

/-- Nothing is added, as the step asks for no type but those at hand. -/
theorem setEnabled (h : c.Tracks steps cache) (hstep : step ≠ .clear)
    (hasks : ∀ query type, step = .find query → c.Asks steps query type →
      cache.stored.contains type = true) :
    c.Tracks (steps ++ [step]) (cache.setEnabled (c.isEnabledAfter (steps ++ [step]))) where
  options := h.options
  isEnabled := rfl
  nodup := h.nodup
  sound type found hfound := (h.sound type found hfound).concat hstep
  complete before query type hasked := by
    rcases askedSince_concat.1 hasked with ⟨_, hold⟩ | ⟨_, hfind, hnew⟩
    · exact h.complete before query type hold
    · exact hasks query type hfind hnew

/-- A step that neither clears nor switches leaves the cache as it is, unless it asks for a new type. -/
theorem keep (h : c.Tracks steps cache) (hstep : step ≠ .clear) (hswitch : step.switch? = none)
    (hasks : ∀ query type, step = .find query → c.Asks steps query type →
      cache.stored.contains type = true) : c.Tracks (steps ++ [step]) cache := by
  have hkept := h.setEnabled hstep hasks
  rwa [isEnabledAfter_concat, hswitch, Option.getD_none, ← h.isEnabled] at hkept

/-- A lookup of a new type adds its answer. -/
theorem insert (h : c.Tracks steps cache) (hasks : c.Asks steps query type)
    (hnone : cache.stored.get? type = none) {m : Model}
    (hm : Model.build (schemaAfter steps) type c.options = .ok m)
    (hanswer : ((c.after steps).answer c.name query).1 = .ok ((c.after steps).lookups, m)) :
    c.Tracks (steps ++ [.find query])
      { cache with stored := cache.stored.insert type ((c.after steps).lookups, m) } where
  options := h.options
  isEnabled := by
    rw [isEnabledAfter_concat]
    exact h.isEnabled
  nodup := Table.nodup_keys_insert h.nodup _ _
  sound type' found hfound := by
    rw [Table.get?_insert] at hfound
    split_ifs at hfound with htype
    · obtain rfl := Option.some.inj hfound
      subst htype
      -- The cache is complete, so what it lacks was not asked for.
      have hnew : ∀ before query', ¬ c.AskedSince steps before query' type' := by
        intro before query' hasked
        have hcontains := h.complete before query' type' hasked
        rw [Table.contains, hnone] at hcontains
        cases hcontains
      exact ⟨steps, query, hasks.firstAsked hnew, hanswer, rfl, hm⟩
    · exact (h.sound type' found hfound).concat (CacheStep.find_ne_clear query)
  complete before query' type' hasked := by
    rw [Table.contains, Table.get?_insert]
    split_ifs with htype
    · rfl
    · rcases askedSince_concat.1 hasked with ⟨_, hold⟩ | ⟨rfl, hfind, _, hresolve⟩
      · exact h.complete before query' type' hold
      · obtain rfl := CacheStep.find.inj hfind
        exact absurd (Except.ok.inj (hresolve.symm.trans hasks.2)) htype

end Tracks

/-- What some steps lead to. -/
structure Reached (c : CacheSetup) (steps : List CacheStep) (cache : ModelCache) : Prop where
  schema : (c.after steps).schema = schemaAfter steps
  held : (c.after steps).caches.get? c.name = some cache
  tracks : c.Tracks steps cache

namespace Reached

variable {cache : ModelCache}

theorem resolve_eq (h : c.Reached steps cache) (query : Query) :
    query.resolve (c.after steps).schema = query.resolve (schemaAfter steps) := by
  rw [h.schema]

theorem exists_build (h : c.Reached steps cache) (type : TypeId) :
    ∃ m, Model.build (c.after steps).schema type cache.options = .ok m ∧
      Model.build (schemaAfter steps) type c.options = .ok m := by
  obtain ⟨m, hm, _⟩ := Model.Source.exists_build ⟨schemaAfter steps, type, c.options⟩
  rw [h.schema, h.tracks.options]
  exact ⟨m, hm, hm⟩

theorem answer_of_disabled (h : c.Reached steps cache) (henabled : c.isEnabledAfter steps = false)
    (hquery : query.resolve (schemaAfter steps) = .ok type) :
    ∃ m, Model.build (schemaAfter steps) type c.options = .ok m ∧
      (c.after steps).answer c.name query = (.ok ((c.after steps).lookups, m),
        { c.after steps with lookups := (c.after steps).lookups + 1 }) := by
  obtain ⟨m, hbuild, hm⟩ := h.exists_build type
  exact ⟨m, hm, Workspace.answer_of_disabled ((h.resolve_eq query).trans hquery) h.held
    (h.tracks.isEnabled.trans henabled) hbuild⟩

/-- What a lookup with the cache on finds is then in the cache. -/
theorem answer_of_enabled (h : c.Reached steps cache) (hasks : c.Asks steps query type) :
    ∃ found stored, (c.after steps).answer c.name query = (.ok found, { c.after steps with
        caches := (c.after steps).caches.insert c.name { cache with stored }
        lookups := (c.after steps).lookups + 1 }) ∧
      stored.get? type = some found ∧ c.Tracks (steps ++ [.find query]) { cache with stored } := by
  have hquery := (h.resolve_eq query).trans hasks.2
  have henabled := h.tracks.isEnabled.trans hasks.1
  cases hget : cache.stored.get? type with
  | some found =>
    refine ⟨found, cache.stored, ?_, hget, ?_⟩
    · rw [Workspace.answer_of_hit hquery h.held henabled hget, Table.insert_of_get? h.held]
    · refine h.tracks.keep (CacheStep.find_ne_clear query) rfl fun query' type' hfind hasks' => ?_
      obtain rfl := CacheStep.find.inj hfind
      obtain rfl := Except.ok.inj (hasks.2.symm.trans hasks'.2)
      rw [Table.contains, hget]
      rfl
  | none =>
    obtain ⟨m, hbuild, hm⟩ := h.exists_build type
    have hanswer := Workspace.answer_of_miss hquery h.held henabled hget hbuild
    exact ⟨_, _, hanswer, Table.get?_insert_self .., h.tracks.insert hasks hget hm (by rw [hanswer])⟩

private theorem of_answer {result : Except Failure (Nat × Model)} {w : Workspace}
    (h : (c.after steps).answer c.name query = (result, w)) (hschema : w.schema = schemaAfter steps)
    (hheld : w.caches.get? c.name = some cache) (htracks : c.Tracks (steps ++ [.find query]) cache) :
    c.Reached (steps ++ [.find query]) cache := by
  have hafter : c.after (steps ++ [.find query]) = w := by
    rw [after_concat]
    exact congrArg Prod.snd h
  refine ⟨?_, hafter ▸ hheld, htracks⟩
  rw [hafter, hschema, schemaAfter_concat]
  rfl

theorem find (h : c.Reached steps cache) (query : Query) :
    ∃ cache', c.Reached (steps ++ [.find query]) cache' := by
  have hstep := CacheStep.find_ne_clear query
  cases hquery : query.resolve (schemaAfter steps) with
  | error f =>
    have hanswer : (c.after steps).answer c.name query = (.error f, c.after steps) :=
      Workspace.answer_of_error ((h.resolve_eq query).trans hquery)
    refine ⟨cache, of_answer hanswer h.schema h.held (h.tracks.keep hstep rfl ?_)⟩
    intro query' type hfind hasks
    obtain rfl := CacheStep.find.inj hfind
    cases hquery.symm.trans hasks.2
  | ok type =>
    cases henabled : c.isEnabledAfter steps with
    | false =>
      obtain ⟨m, _, hanswer⟩ := h.answer_of_disabled henabled hquery
      refine ⟨cache, of_answer hanswer h.schema h.held (h.tracks.keep hstep rfl ?_)⟩
      intro query' type' _ hasks
      cases henabled.symm.trans hasks.1
    | true =>
      obtain ⟨found, stored, hanswer, _, htracks⟩ := h.answer_of_enabled ⟨henabled, hquery⟩
      exact ⟨_, of_answer hanswer h.schema (Table.get?_insert_self ..) htracks⟩

theorem advance (h : c.Reached steps cache) (step : CacheStep) :
    ∃ cache', c.Reached (steps ++ [step]) cache' := by
  have hafter := c.after_concat steps step
  have hschema := schemaAfter_concat steps step
  have hmodify (f : ModelCache → ModelCache) :
      ((c.after steps).updateCache c.name f).caches.get? c.name = some (f cache) := by
    rw [Workspace.updateCache, Table.get?_modify, if_pos rfl, h.held, Option.map_some]
  cases step with
  | find query => exact h.find query
  | clear =>
    refine ⟨cache.clear, ?_, hafter ▸ hmodify _, h.tracks.clear⟩
    rw [hafter, hschema]
    exact h.schema
  | setEnabled enabled =>
    refine ⟨cache.setEnabled enabled, ?_, hafter ▸ hmodify _, ?_⟩
    · rw [hafter, hschema]
      exact h.schema
    · have htracks : c.Tracks (steps ++ [.setEnabled enabled]) _ := h.tracks.setEnabled nofun nofun
      rwa [isEnabledAfter_concat] at htracks
  | change operation =>
    refine ⟨cache, ?_, hafter ▸ h.held, h.tracks.keep nofun rfl nofun⟩
    rw [hafter, hschema]
    exact congrArg operation.apply h.schema

end Reached

theorem exists_reached (c : CacheSetup) (steps : List CacheStep) : ∃ cache, c.Reached steps cache := by
  induction steps using List.reverseRecOn with
  | nil => exact ⟨_, rfl, Table.get?_insert_self .., .new c⟩
  | append_singleton steps step ih =>
    obtain ⟨cache, h⟩ := ih
    exact h.advance step

theorem cacheNamed_after {cache : ModelCache} (h : c.Reached steps cache) :
    (c.after steps).cacheNamed c.name = cache := by
  rw [Workspace.cacheNamed, h.held, Option.getD_some]

theorem Asks.exists_answer (h : c.Asks steps query type) :
    ∃ found, ((c.after steps).answer c.name query).1 = .ok found ∧
      c.FirstAnswer (steps ++ [.find query]) type found := by
  obtain ⟨cache, hreached⟩ := c.exists_reached steps
  obtain ⟨found, stored, hanswer, hget, htracks⟩ := hreached.answer_of_enabled h
  exact ⟨found, by rw [hanswer], htracks.sound type found hget⟩

theorem lookups_after_find {found : Nat × Model}
    (h : ((c.after steps).answer c.name query).1 = .ok found) :
    (c.after (steps ++ [.find query])).lookups = (c.after steps).lookups + 1 := by
  rw [after_concat]
  exact Workspace.lookups_of_answer h

theorem lookups_lt_after {found : Nat × Model} (h : ((c.after steps).answer c.name query).1 = .ok found)
    (rest : List CacheStep) :
    (c.after steps).lookups < (c.after (steps ++ .find query :: rest)).lookups := by
  have hnext := lookups_after_find h
  have hlater := c.lookups_le_after (steps ++ [.find query]) rest
  rw [List.append_assoc, List.singleton_append] at hlater
  omega

theorem FirstAnswer.lt_lookups {found : Nat × Model} (h : c.FirstAnswer steps type found) :
    found.1 < (c.after steps).lookups := by
  obtain ⟨before, query, ⟨⟨rest, rfl, _⟩, _⟩, hanswer, hstamp, _⟩ := h
  rw [hstamp]
  exact lookups_lt_after hanswer rest

/-- Only a query that can be resolved is answered. -/
theorem exists_resolve {found : Nat × Model} (h : ((c.after steps).answer c.name query).1 = .ok found) :
    ∃ type, query.resolve (schemaAfter steps) = .ok type := by
  obtain ⟨cache, hreached⟩ := c.exists_reached steps
  cases hquery : query.resolve (schemaAfter steps) with
  | ok type => exact ⟨type, rfl⟩
  | error f =>
    rw [Workspace.answer_of_error ((hreached.resolve_eq query).trans hquery)] at h
    cases h

/-- With or without the cache, what is found was built of the type, now or before. -/
theorem answer_built {found : Nat × Model} (hquery : query.resolve (schemaAfter steps) = .ok type)
    (h : ((c.after steps).answer c.name query).1 = .ok found) :
    found.1 ≤ (c.after steps).lookups ∧
      ∃ before, Model.build (schemaAfter before) type c.options = .ok found.2 := by
  cases henabled : c.isEnabledAfter steps with
  | true =>
    obtain ⟨found', hanswer, hfirst⟩ := Asks.exists_answer ⟨henabled, hquery⟩
    obtain rfl := Except.ok.inj (hanswer.symm.trans h)
    have hstamp := hfirst.lt_lookups
    rw [lookups_after_find h] at hstamp
    obtain ⟨before, _, _, _, _, hm⟩ := hfirst
    exact ⟨Nat.le_of_lt_succ hstamp, before, hm⟩
  | false =>
    obtain ⟨cache, hreached⟩ := c.exists_reached steps
    obtain ⟨m, hm, hanswer⟩ := hreached.answer_of_disabled henabled hquery
    rw [hanswer] at h
    obtain rfl := Except.ok.inj h
    exact ⟨le_rfl, steps, hm⟩

theorem resolve_byName {s : Schema} {name : String} :
    (Query.byName name).resolve s = .ok type ↔ s.find? name = some type := by
  unfold Query.resolve Schema.named
  cases h : s.find? name <;> simp [h]

theorem answer_byName {name : String} (h : (schemaAfter steps).find? name = some type) :
    (c.after steps).answer c.name (.byName name) = (c.after steps).answer c.name (.byType type) := by
  obtain ⟨cache, hreached⟩ := c.exists_reached steps
  have hname : (Query.byName name).resolve (c.after steps).schema = .ok type := by
    rw [hreached.schema, resolve_byName, h]
  have htype : (Query.byType type).resolve (c.after steps).schema = .ok type := by
    rw [hreached.schema, Query.resolve, Schema.known,
      if_pos ((indexed_schemaAfter steps).listed name type h)]
  rw [Workspace.answer, Workspace.answer, hname, htype]

/-- A type that takes a name is found under it alone, and the other types keep theirs. -/
theorem resolve_renamed {id : TypeId} {traits : ClassTraits} {name : String}
    (h : ((schemaAfter steps).reopen id traits name).1 = .ok ()) (n : String) (type : TypeId) :
    (Query.byName n).resolve (schemaAfter (steps ++ [.change (.reopen id traits name)])) = .ok type ↔
      if n = name then type = id else
        (Query.byName n).resolve (schemaAfter steps) = .ok type ∧ type ≠ id := by
  have hfound : (schemaAfter (steps ++ [.change (.reopen id traits name)])).find? n = _ :=
    (congrArg (Schema.find? · n) (schemaAfter_concat ..)).trans
      ((indexed_schemaAfter steps).find?_reopen h n)
  rw [resolve_byName, resolve_byName, hfound]
  split_ifs with hname
  · exact ⟨fun heq => (Option.some.inj heq).symm, fun heq => heq ▸ rfl⟩
  · unfold Schema.other?
    split_ifs with hown <;> grind

theorem ncard_asked {cache : ModelCache} (h : c.Tracks steps cache) :
    {type | ∃ before query, c.AskedSince steps before query type}.ncard = cache.size := by
  have hasked : {type | ∃ before query, c.AskedSince steps before query type} =
      (cache.stored.keys.toFinset : Set TypeId) := by
    ext type
    simp only [Set.mem_ofPred_eq, List.coe_toFinset, Table.mem_keys_iff]
    constructor
    · rintro ⟨before, query, hasked⟩
      exact h.complete before query type hasked
    · intro hcontains
      obtain ⟨found, hfound⟩ := Option.isSome_iff_exists.1 hcontains
      obtain ⟨before, query, hfirst, _⟩ := h.sound type found hfound
      exact ⟨before, query, hfirst.asked⟩
  rw [hasked, Set.ncard_coe_finset, List.toFinset_card_of_nodup h.nodup]
  exact List.length_map _

/-- Two lookups of one type are answered alike if no clear comes between them. -/
theorem Asks.answer_eq {query' : Query} {rest : List CacheStep} (h : c.Asks steps query type)
    (hclear : .clear ∉ rest) (h' : c.Asks (steps ++ .find query :: rest) query' type) :
    ((c.after (steps ++ .find query :: rest)).answer c.name query').1 =
      ((c.after steps).answer c.name query).1 := by
  obtain ⟨found, hanswer, hfirst⟩ := h.exists_answer
  obtain ⟨found', hanswer', hfirst'⟩ := h'.exists_answer
  have hkept : c.FirstAnswer (steps ++ .find query :: rest ++ [.find query']) type found := by
    rw [← List.singleton_append, ← List.append_assoc]
    exact (hfirst.append hclear).concat (CacheStep.find_ne_clear query')
  rw [hanswer, hanswer', hkept.unique hfirst']

theorem stamp_lt_lookups {rest : List CacheStep} {found : Nat × Model}
    (h : ((c.after steps).answer c.name query).1 = .ok found) :
    found.1 < (c.after (steps ++ .find query :: rest)).lookups := by
  obtain ⟨type, hquery⟩ := exists_resolve h
  exact (answer_built hquery h).1.trans_lt (lookups_lt_after h rest)

theorem type_of_answer {found : Nat × Model} (hquery : query.resolve (schemaAfter steps) = .ok type)
    (h : ((c.after steps).answer c.name query).1 = .ok found) : found.2.type = type := by
  obtain ⟨before, hm⟩ := (answer_built hquery h).2
  exact Model.Source.type_of_build ⟨schemaAfter before, type, c.options⟩ hm

theorem stored_setEnabled (c : CacheSetup) (steps : List CacheStep) (enabled : Bool) :
    ((c.after (steps ++ [.setEnabled enabled])).cacheNamed c.name).stored =
      ((c.after steps).cacheNamed c.name).stored := by
  obtain ⟨cache, h⟩ := c.exists_reached steps
  rw [after_concat]
  change ((((c.after steps).caches.modify c.name _).get? c.name).getD {}).stored = _
  rw [Table.get?_modify, if_pos rfl, h.held, cacheNamed_after h]
  rfl

theorem answer_unknown {name : String} (h : (schemaAfter steps).find? name = none) :
    (c.after steps).answer c.name (.byName name) = (.error (.notRegistered name), c.after steps) := by
  obtain ⟨cache, hreached⟩ := c.exists_reached steps
  refine Workspace.answer_of_error ((hreached.resolve_eq _).trans ?_)
  rw [Query.resolve, Schema.named, h]

theorem answer_unlisted {id : TypeId} (h : ¬ (schemaAfter steps).contains id) :
    (c.after steps).answer c.name (.byType id) =
      (.error (.notRegistered id.defaultName), c.after steps) := by
  obtain ⟨cache, hreached⟩ := c.exists_reached steps
  refine Workspace.answer_of_error ((hreached.resolve_eq _).trans ?_)
  rw [Query.resolve, Schema.known, if_neg h]

/-- How the lookups after some steps, and those among them, go together. -/
structure FirstWins (c : CacheSetup) (steps : List CacheStep) : Prop where
  enabled : ∀ query type, c.Asks steps query type →
    ∃ found, ((c.after steps).answer c.name query).1 = .ok found ∧
      c.FirstAnswer (steps ++ [.find query]) type found
  kept : ∀ query query' type rest, c.Asks steps query type → .clear ∉ rest →
    c.Asks (steps ++ .find query :: rest) query' type →
    ((c.after (steps ++ .find query :: rest)).answer c.name query').1 =
      ((c.after steps).answer c.name query).1
  disabled : ∀ query type, c.isEnabledAfter steps = false →
    query.resolve (schemaAfter steps) = .ok type → ∃ m,
      Model.build (schemaAfter steps) type c.options = .ok m ∧
      (c.after steps).answer c.name query = (.ok ((c.after steps).lookups, m),
        { c.after steps with lookups := (c.after steps).lookups + 1 })
  /-- A model built now is told from all that were given before. -/
  new : ∀ before query rest found, steps = before ++ .find query :: rest →
    ((c.after before).answer c.name query).1 = .ok found → found.1 < (c.after steps).lookups
  own : ∀ query type found, query.resolve (schemaAfter steps) = .ok type →
    ((c.after steps).answer c.name query).1 = .ok found → found.2.type = type
  switched : ∀ enabled, ((c.after (steps ++ [.setEnabled enabled])).cacheNamed c.name).stored =
    ((c.after steps).cacheNamed c.name).stored
  named : ∀ name type, (schemaAfter steps).find? name = some type →
    (c.after steps).answer c.name (.byName name) = (c.after steps).answer c.name (.byType type)
  renamed : ∀ id traits name, ((schemaAfter steps).reopen id traits name).1 = .ok () →
    ∀ n type, (Query.byName n).resolve (schemaAfter (steps ++ [.change (.reopen id traits name)])) =
      .ok type ↔ if n = name then type = id else
        (Query.byName n).resolve (schemaAfter steps) = .ok type ∧ type ≠ id
  unknown : ∀ name, (schemaAfter steps).find? name = none →
    (c.after steps).answer c.name (.byName name) = (.error (.notRegistered name), c.after steps)
  unlisted : ∀ id, ¬ (schemaAfter steps).contains id →
    (c.after steps).answer c.name (.byType id) = (.error (.notRegistered id.defaultName), c.after steps)
  size : ((c.after steps).cacheNamed c.name).size =
    {type | ∃ before query, c.AskedSince steps before query type}.ncard

/-- Over any history of a cache, a lookup with the cache on is answered as the first one of the type since
the last clear was, whatever happened to the type in between; one with the cache off builds anew and leaves
the cache alone. Names are resolved as they are at the time, and a lookup that cannot be resolved changes
nothing. -/
theorem lookups_firstWins (c : CacheSetup) (steps : List CacheStep) : c.FirstWins steps where
  enabled _ _ hasks := hasks.exists_answer
  kept _ _ _ _ hasks hclear hagain := hasks.answer_eq hclear hagain
  disabled _ _ henabled hquery := by
    obtain ⟨cache, h⟩ := c.exists_reached steps
    exact h.answer_of_disabled henabled hquery
  new before query rest found hsteps hanswer := by
    rw [hsteps]
    exact stamp_lt_lookups hanswer
  own _ _ _ hquery hanswer := type_of_answer hquery hanswer
  switched enabled := c.stored_setEnabled steps enabled
  named _ _ hname := answer_byName hname
  renamed _ _ _ hok := resolve_renamed hok
  unknown _ hname := answer_unknown hname
  unlisted _ hid := answer_unlisted hid
  size := by
    obtain ⟨cache, h⟩ := c.exists_reached steps
    rw [cacheNamed_after h, ncard_asked h.tracks]

/-- A class, and what a lookup of it is followed by: it gets a getter and another name, and its former name
goes to another class, while the cache is off for some of the time. -/
def opened : List CacheStep := [.change (.reopen Schema.baseClass {} "Base")]

def handedOver : List CacheStep := [
  .change (.declare Schema.baseClass (.method
    { name := "getCode", result := some .string, body := .load "code" })),
  .setEnabled false,
  .change (.reopen Schema.baseClass {} "Former"),
  .find (.byName "Former"),
  .change (.reopen Schema.derivedClass {} "Base"),
  .setEnabled true]

/-- The class keeps its model under its new name, and the new owner of its old name has its own. -/
theorem lookups_firstWins_renamed :
    let c : CacheSetup := { name := "cache" }
    let steps := opened ++ .find (.byName "Base") :: handedOver
    c.Asks opened (.byName "Base") Schema.baseClass ∧ .clear ∉ handedOver ∧
      c.Asks steps (.byName "Former") Schema.baseClass ∧
      c.Asks steps (.byName "Base") Schema.derivedClass ∧
      ((c.after steps).answer c.name (.byName "Former")).1 =
        ((c.after opened).answer c.name (.byName "Base")).1 ∧
      ∃ found, ((c.after steps).answer c.name (.byName "Base")).1 = .ok found ∧
        found.2.type = Schema.derivedClass := by
  intro c steps
  have hbefore : c.Asks opened (.byName "Base") Schema.baseClass := ⟨rfl, rfl⟩
  have hclear : .clear ∉ handedOver := by simp [handedOver]
  have hformer : c.Asks steps (.byName "Former") Schema.baseClass := ⟨rfl, rfl⟩
  have hbase : c.Asks steps (.byName "Base") Schema.derivedClass := ⟨rfl, rfl⟩
  obtain ⟨found, hfound, _⟩ := (lookups_firstWins c steps).enabled _ _ hbase
  exact ⟨hbefore, hclear, hformer, hbase,
    (lookups_firstWins c opened).kept _ _ _ _ hbefore hclear hformer,
    found, hfound, (lookups_firstWins c steps).own _ _ _ hbase.2 hfound⟩

end CacheSetup
end Introspect
