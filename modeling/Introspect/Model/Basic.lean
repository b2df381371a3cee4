import Introspect.Model.PropertyTable
import Introspect.Model.Selection
import Introspect.Schema.Resolution

/-! The property model of a type: an accessor for each readable and each writable property, found in
methods first and in fields after them. -/
namespace Introspect

structure ModelOptions where
  bypassVisibility : Bool := true
  strictPredicates : Bool := true
  deriving DecidableEq, Repr

structure Model where
  type : TypeId
  options : ModelOptions
  readable : PropertyTable := ∅
  writable : PropertyTable := ∅
  defaultConstructor? : Option Constructor := none

namespace Model

/-- What a model is built from. -/
structure Source where
  schema : Schema
  subject : TypeId
  options : ModelOptions

namespace Source

/-- The name of a declaring type as it is now. A detached member counts as the subject's own. -/
def declaringName (s : Source) (declaring : Option TypeId) : String :=
  s.schema.nameOf (declaring.getD s.subject)

def methodAccessor (s : Source) (c : Candidate) (type : RuntimeType) : Accessor :=
  .method {
    name := c.member.name
    declaring := s.declaringName c.member.declaring
    visibility := c.member.visibility
    isStatic := c.member.isStatic
    upcasts := c.upcasts
    type
    bypass := s.options.bypassVisibility
    arity := c.member.arity
    callable := c.member.callable }

def fieldAccessor (s : Source) (f : Found Field) (use : FieldUse) : Accessor :=
  .field {
    name := f.member.name
    declaring := s.declaringName f.member.declaring
    visibility := f.member.visibility
    isStatic := f.member.isStatic
    upcasts := f.upcasts
    type := s.schema.fieldTypeAt f.member s.subject
    bypass := s.options.bypassVisibility
    use }

def getterType (s : Source) (c : Candidate) : RuntimeType := s.schema.returnsAt c.member s.subject

def setterType (s : Source) (c : Candidate) : RuntimeType :=
  (s.schema.paramsAt c.member s.subject).headD .invalid

/-- Of two conflicting getters the first gives the type and is named as the declaring side. -/
def getterAccessor (s : Source) (property : String) : Selection → Accessor
  | .chosen winner => s.methodAccessor winner (s.getterType winner)
  | .conflict first second =>
    let declaring := s.declaringName first.member.declaring
    .ambiguous {
      model := s.schema.nameOf s.subject
      property
      message := s!"Illegal overloaded getter method with ambiguous type for property '{property}' in type '{declaring}'. This breaks the expected accessor specification and can cause unpredictable results."
      a := s.schema.typeName first.returns
      b := s.schema.typeName second.returns
      declaring } (s.getterType first)

/-- Of two conflicting setters the first gives the type and the second is named as the declaring
side. -/
def setterAccessor (s : Source) (property : String) : Selection → Accessor
  | .chosen winner => s.methodAccessor winner (s.setterType winner)
  | .conflict first second =>
    let declaring := s.declaringName second.member.declaring
    let a := s.schema.typeName first.parameter
    let b := s.schema.typeName second.parameter
    .ambiguous {
      model := s.schema.nameOf s.subject
      property
      message := s!"Ambiguous setters defined for property '{property}' in type '{declaring}' with types '{a}' and '{b}'."
      a
      b
      declaring } (s.setterType first)

/-- The getter of a property is known once all its candidates are. -/
def recordGetter (s : Source) (t : PropertyTable) (property : String) (selection : Selection) :
    PropertyTable :=
  t.record property (s.getterAccessor property selection) (s.getterType selection.best)

def recordSetter (s : Source) (t : PropertyTable) (property : String) (selection : Selection) :
    PropertyTable :=
  t.record property (s.setterAccessor property selection) (s.setterType selection.best)

def getters (s : Source) (found : List Candidate) : Except Failure PropertyTable := do
  let groups ← CandidateGroup.byProperty
    (found.filter (Candidate.isGetter s.options.strictPredicates))
  return groups.entries.foldl (fun t (property, g) =>
    s.recordGetter t property (Selection.getter s.schema g.first g.rest)) ∅

/-- The type a property's getter method gives, unless its getters conflict. -/
def given? (getters : PropertyTable) (property : String) : Option RuntimeType :=
  if (getters.accessors.get? property).any (·.isAmbiguous) then none
  else getters.types.get? property

/-- Weighs one setter after another. A conflict is recorded as soon as it arises. The first setter that
takes just what the getter gives ends the search, and takes the place of a conflict before it. -/
def recordSetters (s : Source) (property : String) (given : Option RuntimeType) (t : PropertyTable) :
    Selection → List Candidate → PropertyTable
  | .chosen best, [] => s.recordSetter t property (.chosen best)
  | .conflict _ _, [] => t
  | selection, c :: rest =>
    if given = some c.parameter then s.recordSetter t property (.chosen c)
    else
      match selection, selection.weigh s.schema c with
      | .chosen _, .conflict first second =>
        let t := s.recordSetter t property (.conflict first second)
        s.recordSetters property given t (.conflict first second) rest
      | _, next => s.recordSetters property given t next rest

/-- The search starts from the first setter, which may itself take what the getter gives. -/
def recordGroup (s : Source) (getters t : PropertyTable) (property : String) (g : CandidateGroup) :
    PropertyTable :=
  let given := given? getters property
  if given = some g.first.parameter then s.recordSetter t property (.chosen g.first)
  else s.recordSetters property given t (.chosen g.first) g.rest

def setters (s : Source) (found : List Candidate) (getters : PropertyTable) :
    Except Failure PropertyTable := do
  let groups ← CandidateGroup.byProperty (found.filter Candidate.isSetter)
  return groups.entries.foldl (fun t (property, g) => s.recordGroup getters t property g) ∅

/-- Every field can be read. -/
def reading (f : Field) : Option FieldUse := some (.read f.reader)

/-- A field can be set if it has a writer and is not both static and final. -/
def isSettable (f : Field) : Bool := f.writer.isSome && !(f.isFinal && f.isStatic)

def writing (f : Field) : Option FieldUse :=
  if isSettable f then some (.write f.writer) else none

def recordField (s : Source) (t : PropertyTable) (f : Found Field) (use : FieldUse) : PropertyTable :=
  if Naming.isPropertyName f.member.name then
    t.record f.member.name (s.fieldAccessor f use) (s.schema.fieldTypeAt f.member s.subject)
  else t

/-- A field stands in for its property on a side that has no accessor for it yet. -/
def fill (s : Source) (use : Field → Option FieldUse) (t : PropertyTable) (f : Found Field) :
    PropertyTable :=
  match use f.member with
  | some use => if t.contains f.member.name then t else s.recordField t f use
  | none => t

def addField (s : Source) (m : Model) (f : Found Field) : Model :=
  { m with
    readable := s.fill reading m.readable f
    writable := s.fill writing m.writable f }

end Source

def build (schema : Schema) (subject : TypeId) (options : ModelOptions) : Except Failure Model := do
  let s : Source := { schema, subject, options }
  let methods := schema.shownMethods subject
  let readable ← s.getters methods
  let writable ← s.setters methods readable
  return (schema.shownFields subject).foldl s.addField {
    type := subject
    options
    readable
    writable
    defaultConstructor? := (schema.describe subject).defaultConstructor? }

def side (m : Model) : Side → PropertyTable
  | .getter => m.readable
  | .setter => m.writable

/-- What is recorded under a name on one side, or the failure that there is no such property. -/
def require {α : Type} (m : Model) (s : Schema) (side : Side) (property : String) :
    Option α → Except Failure α
  | some a => .ok a
  | none => .error (.propertyNotFound (s.nameOf m.type) property side)

def accessor (m : Model) (s : Schema) (side : Side) (property : String) : Except Failure Accessor :=
  m.require s side property ((m.side side).accessors.get? property)

def propertyType (m : Model) (s : Schema) (side : Side) (property : String) :
    Except Failure RuntimeType :=
  m.require s side property ((m.side side).types.get? property)

/-- The property that a name in any letter case denotes. Of several it is the last one listed, and
writable properties are listed after readable ones. -/
def find? (m : Model) (name : String) : Option String :=
  (m.readable.names ++ m.writable.names).reverse.find? (Naming.fold · = Naming.fold name)

/-- Names by their folded bytes. Those of writable properties come last and replace others. -/
def caseIndex (m : Model) : Table (List UInt8) String :=
  let enter (t : Table (List UInt8) String) (n : String) := t.insert (Naming.upper (Naming.utf8 n)) n
  m.writable.names.foldl enter (m.readable.names.foldl enter ∅)

/-- The name that stands for a byte string in any letter case. -/
def findBytes? (m : Model) (q : List UInt8) : Option String := m.caseIndex.get? (Naming.upper q)

def defaultConstructor (m : Model) (s : Schema) : Except Failure Constructor :=
  match m.defaultConstructor? with
  | some c => .ok c
  | none => .error (.noDefaultConstructor (s.nameOf m.type))

end Model
end Introspect
