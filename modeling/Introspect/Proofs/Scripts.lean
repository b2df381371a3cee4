import Introspect.Proofs.Congruence
import Introspect.Proofs.Reopening

/-! Scripts. Each opens one class under a name and adds to its description, and refers to other types by
identity alone. What a script makes of a schema can be told from its text. -/
namespace Introspect

/-- Whether the type is a class of the host. -/
def TypeId.isClass (id : TypeId) : Bool := id.category = .concrete || id.category = .interface

/-- What a description says of a type that may be taken for a class or for an interface. -/
def Description.outline (d : Description) : Description :=
  { d with category := if d.category = .interface then .concrete else d.category }

/-- The base of a link is a class. -/
def Declaration.isTyped : Declaration → Bool
  | superclass l | interface l => l.base.all TypeId.isClass
  | _ => true

namespace Schema

/-- What an operation ends in. A mention and an amendment cannot fail. -/
def Operation.outcome (s : Schema) : Operation → Except Failure Unit
  | reopen id traits name => (s.reopen id traits name).1
  | declare id declaration => (s.declare id declaration).1
  | mention _ | amend _ _ _ _ => .ok ()

/-- Goes on from one operation to the next only if it succeeds. -/
def attempt (operations : List Operation) (s : Schema) : Except Failure Schema :=
  operations.foldlM (fun s o => (o.outcome s).map fun _ => o.apply s) s

end Schema

/-- A step of a script adds to the class that the script is about, or uses some type. -/
inductive ScriptStep
  | declare (declaration : Declaration)
  | mention (id : TypeId)

namespace ScriptStep

def isTyped : ScriptStep → Bool
  | declare declaration => declaration.isTyped
  | mention _ => true

def fits : ScriptStep → Bool
  | declare declaration => declaration.fits
  | mention _ => true

def listed : ScriptStep → List (TypeId × Category)
  | declare declaration => declaration.listed
  | mention id => [(id, id.category)]

def extend (id : TypeId) : ScriptStep → Description → Description
  | declare declaration, d => declaration.extend id d
  | mention _, d => d

def extendAll (id : TypeId) (steps : List ScriptStep) (d : Description) : Description :=
  steps.foldl (fun d step => step.extend id d) d

def operation (id : TypeId) : ScriptStep → Schema.Operation
  | declare declaration => .declare id declaration
  | mention id => .mention id

end ScriptStep

/-- A script for a class. -/
structure Script where
  id : TypeId
  name : String
  traits : ClassTraits := {}
  steps : List ScriptStep := []
  isClass : id.isClass := by decide
  isTyped : steps.all ScriptStep.isTyped := by decide

namespace Script

/-- Every signature is in order. -/
def fits (p : Script) : Bool := p.steps.all ScriptStep.fits

/-- The class itself, and the types that it is described by. -/
def listed (p : Script) : List TypeId := p.id :: p.steps.flatMap (·.listed.map Prod.fst)

/-- What becomes of the description of the class. -/
def result (p : Script) (d : Description) : Description :=
  ScriptStep.extendAll p.id p.steps ({ d with name := p.name }.opened p.id p.traits)

def operations (p : Script) : List Schema.Operation :=
  .reopen p.id p.traits p.name :: p.steps.map (·.operation p.id)

/-- Runs scripts one after the other from the built-in types on. -/
def runAll (scripts : List Script) : Except Failure Schema :=
  Schema.attempt (scripts.flatMap operations) .builtIn

end Script

namespace Description

variable {d d' : Description} {id : TypeId}

theorem outline_placeholder (h : id.isClass) {category : Category}
    (hc : category = .concrete ∨ category = .interface) (name : String) :
    (placeholder name category).outline = (placeholder name id.category).outline := by
  have hid : id.category = .concrete ∨ id.category = .interface := by
    simpa [TypeId.isClass] using h
  rcases hc with rfl | rfl <;> rcases hid with hid | hid <;> rw [hid] <;> rfl

theorem category_outline_iff {category : Category} (hc : category ≠ .concrete)
    (hi : category ≠ .interface) (d : Description) :
    d.outline.category = category ↔ d.category = category := by
  unfold outline
  split_ifs with h
  · simp [h, hc.symm, hi.symm]
  · rfl

/-- No part of a description that is added to depends on what the type is taken for. -/
theorem outline_extend (h : d.outline = d'.outline) (declaration : Declaration) :
    (declaration.extend id d).outline = (declaration.extend id d').outline := by
  have hparameters := congrArg typeParameters h
  have herase : d.erase = d'.erase := erase_congr hparameters
  cases declaration with
  | asInterface => exact congrArg ({ · with category := .concrete, isAbstract := true }) h
  | asAbstract => exact congrArg ({ · with isAbstract := true }) h
  | typeParameter p =>
    have hcommutes (e : Description) : (e.addTypeParameter p).outline = e.outline.addTypeParameter p := by
      rw [addTypeParameter_eq, addTypeParameter_eq]
      rfl
    simp only [Declaration.extend, hcommutes, h]
  | superclass l => exact congrArg ({ · with superclass := some l.link }) h
  | interface l =>
    exact congrArg (fun e : Description => { e with interfaces := e.interfaces ++ [l.link] }) h
  | method m =>
    have hscope : m.method id d = m.method id d' := by
      unfold MethodDeclaration.method
      rw [herase]
    rw [Declaration.extend, Declaration.extend, hscope]
    exact congrArg (fun e : Description => { e with methods := e.methods ++ [m.method id d'] }) h
  | field f =>
    have hscope : f.field id d = f.field id d' := by
      unfold FieldDeclaration.field
      rw [herase]
    rw [Declaration.extend, Declaration.extend, hscope]
    exact congrArg (fun e : Description => { e with fields := e.fields ++ [f.field id d'] }) h
  | constructor c =>
    have hcommutes (e : Description) (c : Constructor) :
        (e.addConstructor c).outline = e.outline.addConstructor c := by
      rw [addConstructor_eq, addConstructor_eq]
      rfl
    simp only [Declaration.extend, hcommutes, h]

theorem outline_opened (h : d.outline = d'.outline) (name : String) (traits : ClassTraits) :
    ({ d with name }.opened id traits).outline = ({ d' with name }.opened id traits).outline := by
  have hcommutes (e : Description) :
      ({ e with name }.opened id traits).outline = { e.outline with name }.opened id traits := by
    simp only [opened_eq, addConstructor_eq]
    rfl
  rw [hcommutes, hcommutes, h]

end Description

namespace Schema

variable {s t : Schema} {id : TypeId}

theorem attempt_cons {o : Operation} {operations : List Operation} :
    attempt (o :: operations) s = .ok t ↔
      o.outcome s = .ok () ∧ attempt operations (o.apply s) = .ok t := by
  unfold attempt
  rw [List.foldlM_cons]
  cases ho : o.outcome s with
  | error f => simp [Except.map, bind, Except.bind]
  | ok _ => simp [Except.map, bind, Except.bind]

theorem attempt_append {operations rest : List Operation} :
    attempt (operations ++ rest) s = .ok t ↔
      ∃ u, attempt operations s = .ok u ∧ attempt rest u = .ok t := by
  induction operations generalizing s with
  | nil => simp [attempt, pure, Except.pure]
  | cons o operations ih => simp only [List.cons_append, attempt_cons, ih, and_assoc, exists_and_left]

/-- What a type is taken for when it is listed does not show in the outline of a class. -/
theorem outline_listAll {types : List (TypeId × Category)}
    (h : ∀ e ∈ types, (Description.placeholder e.1.defaultName e.2).outline =
      (Description.placeholder e.1.defaultName e.1.category).outline) (id : TypeId) :
    ((s.listAll types).describe id).outline = (s.describe id).outline := by
  rcases s.describe_listAll id types with hsame | ⟨category, hm, hnew, hplaceholder⟩
  · rw [hsame]
  · rw [hplaceholder, describe_eq_placeholder hnew]
    exact h _ hm

end Schema

namespace ScriptStep

variable {s : Schema} {id : TypeId}

theorem outline_of_listed {step : ScriptStep} (h : step.isTyped) :
    ∀ e ∈ step.listed, (Description.placeholder e.1.defaultName e.2).outline =
      (Description.placeholder e.1.defaultName e.1.category).outline := by
  intro e he
  cases step with
  | mention id =>
    rw [List.mem_singleton.1 he]
  | declare declaration =>
    cases declaration with
    | superclass l =>
      obtain ⟨base, hbase, rfl⟩ := List.mem_map.1 he
      have hclass : base.isClass := (Option.all_eq_true _ _).1 h base (Option.mem_toList.1 hbase)
      exact Description.outline_placeholder hclass (Or.inl rfl) _
    | interface l =>
      obtain ⟨base, hbase, rfl⟩ := List.mem_map.1 he
      have hclass : base.isClass := (Option.all_eq_true _ _).1 h base (Option.mem_toList.1 hbase)
      exact Description.outline_placeholder hclass (Or.inr rfl) _
    | method | field | constructor =>
      obtain ⟨_, _, rfl⟩ := List.mem_map.1 he
      rfl
    | asInterface | asAbstract | typeParameter => exact absurd he List.not_mem_nil

theorem outcome_eq_ok_iff (hc : s.contains id) (step : ScriptStep) :
    (step.operation id).outcome s = .ok () ↔ step.fits := by
  cases step with
  | mention => exact ⟨fun _ => rfl, fun _ => rfl⟩
  | declare declaration =>
    change (s.declare id declaration).1 = .ok () ↔ declaration.fits
    rcases s.declare_cases id declaration with ⟨_, hfits, heq⟩ | ⟨_, hfits, _, heq⟩ | ⟨hnew, _⟩
    · simp [heq, hfits]
    · simp [heq, hfits]
    · exact absurd hc hnew

/-- A step that succeeds lists types and extends the description. -/
theorem apply_eq (hc : s.contains id) {step : ScriptStep} (h : step.fits) :
    (step.operation id).apply s = (s.listAll step.listed).update id (step.extend id) := by
  cases step with
  | mention type =>
    have hsame : (s.mention type).update id (fun d => d) = s.mention type := by
      rw [Schema.update, Table.modify_id]
    exact hsame.symm
  | declare declaration =>
    change (s.declare id declaration).2 = _
    rcases s.declare_cases id declaration with ⟨_, _, heq⟩ | ⟨_, hfits, _⟩ | ⟨hnew, _⟩
    · rw [heq]
      rfl
    · exact absurd h hfits
    · exact absurd hc hnew

theorem outline_extend {d d' : Description} (h : d.outline = d'.outline) (step : ScriptStep) :
    (step.extend id d).outline = (step.extend id d').outline := by
  cases step with
  | declare declaration => exact Description.outline_extend h declaration
  | mention => exact h

theorem outline_extendAll {d d' : Description} (h : d.outline = d'.outline) (steps : List ScriptStep) :
    (extendAll id steps d).outline = (extendAll id steps d').outline := by
  induction steps generalizing d d' with
  | nil => exact h
  | cons step rest ih => exact ih (outline_extend h step)

theorem extend_name (step : ScriptStep) (d : Description) : (step.extend id d).name = d.name := by
  cases step with
  | declare declaration => exact declaration.extend_name id d
  | mention => rfl

@[simp] theorem extendAll_name (steps : List ScriptStep) (d : Description) :
    (extendAll id steps d).name = d.name := by
  induction steps generalizing d with
  | nil => rfl
  | cons step rest ih => exact (ih _).trans (extend_name step d)

end ScriptStep

namespace Schema

/-- Lists types and changes the description of one, as far as outlines tell. -/
structure Reshaped (s : Schema) (id : TypeId) (f : Description → Description) (listed : List TypeId)
    (t : Schema) : Prop where
  indexed : t.Indexed
  contains : ∀ id', t.contains id' ↔ s.contains id' ∨ id' ∈ listed
  own : (t.describe id).outline = (f (s.describe id)).outline
  others : ∀ id', id' ≠ id → (t.describe id').outline = (s.describe id').outline

namespace Reshaped

variable {s t u : Schema} {id : TypeId} {f g : Description → Description} {listed listed' : List TypeId}

theorem trans (hst : s.Reshaped id f listed t) (htu : t.Reshaped id g listed' u)
    (hg : ∀ d d' : Description, d.outline = d'.outline → (g d).outline = (g d').outline) :
    s.Reshaped id (fun d => g (f d)) (listed ++ listed') u where
  indexed := htu.indexed
  contains id' := by rw [htu.contains, hst.contains, List.mem_append, or_assoc]
  own := htu.own.trans (hg _ _ hst.own)
  others id' hid := (htu.others id' hid).trans (hst.others id' hid)

/-- A step that succeeds. -/
theorem step (h : s.Indexed) (hc : s.contains id) {step : ScriptStep} (htyped : step.isTyped)
    (hfits : step.fits) :
    s.Reshaped id (step.extend id) (step.listed.map Prod.fst) ((step.operation id).apply s) := by
  have hlisted (id' : TypeId) := s.outline_listAll (ScriptStep.outline_of_listed htyped) id'
  have hc' : (s.listAll step.listed).contains id := (contains_listAll id _).2 (Or.inl hc)
  refine ⟨h.apply _, fun id' => ?_, ?_, fun id' hid => ?_⟩
  · rw [ScriptStep.apply_eq hc hfits, contains_update, contains_listAll]
  · rw [ScriptStep.apply_eq hc hfits, describe_update, if_pos ⟨rfl, hc'⟩]
    exact ScriptStep.outline_extend (hlisted id) step
  · rw [ScriptStep.apply_eq hc hfits, describe_update, if_neg fun heq => hid heq.1]
    exact hlisted id'

/-- A class that is opened. -/
theorem reopen (h : s.Indexed) (hclass : id.isClass) {traits : ClassTraits} {name : String}
    (hok : (s.reopen id traits name).1 = .ok ()) :
    s.Reshaped id (fun d => { d with name }.opened id traits) [id] (s.reopen id traits name).2 := by
  have htypes := h.types_reopen hok
  refine ⟨h.reopen id traits name, fun id' => ?_, ?_, fun id' hid => ?_⟩
  · rw [Schema.contains, htypes, Table.contains_insert, List.mem_singleton]
    simp [Schema.contains, or_comm]
  · rw [describe, htypes, Table.get?_insert_self]
    unfold describe openedAs
    cases s.types.get? id with
    | some d => rfl
    | none =>
      have hplaceholder := Description.outline_placeholder hclass (Or.inl rfl) name
      exact Description.outline_opened hplaceholder name traits
  · rw [describe, htypes, Table.get?_insert_of_ne _ _ hid]
    rfl

/-- Steps that succeed, one after the other. -/
theorem steps (h : s.Indexed) (hc : s.contains id) {steps : List ScriptStep}
    (htyped : steps.all ScriptStep.isTyped)
    (ht : attempt (steps.map (·.operation id)) s = .ok t) :
    s.Reshaped id (ScriptStep.extendAll id steps) (steps.flatMap (·.listed.map Prod.fst)) t := by
  induction steps generalizing s with
  | nil =>
    cases ht
    exact ⟨h, by simp, rfl, fun _ _ => rfl⟩
  | cons first rest ih =>
    rw [List.all_cons, Bool.and_eq_true] at htyped
    rw [List.map_cons, attempt_cons, ScriptStep.outcome_eq_ok_iff hc] at ht
    have hfirst := step h hc htyped.1 ht.1
    have hrest := ih hfirst.indexed ((hfirst.contains id).2 (Or.inl hc)) htyped.2 ht.2
    exact hfirst.trans hrest fun _ _ hd => ScriptStep.outline_extendAll hd rest

end Reshaped

/-- Steps succeed if every signature is in order. -/
theorem exists_attempt_steps_iff {s : Schema} {id : TypeId} (h : s.Indexed) (hc : s.contains id)
    {steps : List ScriptStep} (htyped : steps.all ScriptStep.isTyped) :
    (∃ t, attempt (steps.map (·.operation id)) s = .ok t) ↔ steps.all ScriptStep.fits := by
  induction steps generalizing s with
  | nil => exact ⟨fun _ => rfl, fun _ => ⟨s, rfl⟩⟩
  | cons first rest ih =>
    rw [List.all_cons, Bool.and_eq_true] at htyped
    simp only [List.map_cons, attempt_cons, ScriptStep.outcome_eq_ok_iff hc, List.all_cons,
      Bool.and_eq_true, exists_and_left]
    refine and_congr_right fun hfits => ?_
    have hfirst := Reshaped.step h hc htyped.1 hfits
    exact ih hfirst.indexed ((hfirst.contains id).2 (Or.inl hc)) htyped.2

end Schema

namespace Script

variable {s t : Schema} {p : Script}

/-- What a script comes to does not depend on what its class was taken for before. -/
theorem outline_result {d d' : Description} (h : d.outline = d'.outline) (p : Script) :
    (p.result d).outline = (p.result d').outline :=
  ScriptStep.outline_extendAll (Description.outline_opened h p.name p.traits) p.steps

@[simp] theorem result_name (p : Script) (d : Description) : (p.result d).name = p.name := by
  simp [result]

/-- A class once opened is there to be added to. -/
private theorem reopened (h : s.Indexed) (p : Script)
    (hok : (s.reopen p.id p.traits p.name).1 = .ok ()) :
    let opened := (s.reopen p.id p.traits p.name).2
    s.Reshaped p.id (fun d => { d with name := p.name }.opened p.id p.traits) [p.id] opened ∧
      opened.Indexed ∧ opened.contains p.id := by
  intro opened
  have hreshaped := Schema.Reshaped.reopen h p.isClass hok
  exact ⟨hreshaped, hreshaped.indexed, (hreshaped.contains p.id).2 (Or.inr (List.mem_singleton.2 rfl))⟩

/-- A script that succeeds. -/
theorem reshaped (h : s.Indexed) (ht : Schema.attempt p.operations s = .ok t) :
    s.Reshaped p.id p.result p.listed t := by
  obtain ⟨hok, hsteps⟩ := Schema.attempt_cons.1 ht
  obtain ⟨hopened, hindexed, hlisted⟩ := reopened h p hok
  exact hopened.trans (.steps hindexed hlisted p.isTyped hsteps) fun _ _ hd =>
    ScriptStep.outline_extendAll hd p.steps

/-- A script succeeds if no other type has the name and every signature is in order. -/
theorem exists_attempt_iff (h : s.Indexed) (p : Script) :
    (∃ t, Schema.attempt p.operations s = .ok t) ↔ s.other? p.id p.name = none ∧ p.fits := by
  simp only [operations, Schema.attempt_cons, exists_and_left]
  rw [← Schema.reopen_ok_iff s p.id p.traits p.name]
  refine and_congr_right fun hok => ?_
  obtain ⟨_, hindexed, hlisted⟩ := reopened h p hok
  exact Schema.exists_attempt_steps_iff hindexed hlisted p.isTyped

end Script
end Introspect
