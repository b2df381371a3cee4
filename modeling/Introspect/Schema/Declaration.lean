import Introspect.Host.Body
import Introspect.Schema.Basic
import Introspect.Schema.Erasure

/-! Declarations fill in the description of a type. A declaration that fails keeps the types it
listed before. -/
namespace Introspect

/-- What the host knows about a class it opens. -/
structure ClassTraits where
  isAbstract : Bool := false
  isDefaultConstructible : Bool := true

/-- A declared signature, where one is given, replaces the one that follows from the host types. -/
structure MethodDeclaration where
  name : String
  result : Option HostType := none
  params : List HostType := []
  isStatic : Bool := false
  isBridge : Bool := false
  visibility : Visibility := .publicAccess
  declaredReturns : Option TypeExpr := none
  declaredParams : List TypeExpr := []
  passing : Passing := {}
  body : Body

/-- Where the host keeps the value of a field: in a slot of each object, in the code, or in a global
that all objects share. -/
inductive Storage
  | slot (key : String)
  | fixed (value : Value)
  | global (index : Nat)

structure FieldDeclaration where
  name : String
  type : HostType
  storage : Storage
  isConstant : Bool := false
  isFinal : Bool := false
  visibility : Visibility := .publicAccess
  declaredType : Option TypeExpr := none

structure ConstructorDeclaration where
  params : List HostType := []
  visibility : Visibility := .publicAccess
  passing : Passing := {}
  body : Body

structure LinkDeclaration where
  base : Option TypeId
  args : List TypeExpr := []
  upcast : Option String := none

inductive Declaration
  | asInterface
  | asAbstract
  | typeParameter (parameter : TypeParameter)
  | superclass (link : LinkDeclaration)
  | interface (link : LinkDeclaration)
  | method (method : MethodDeclaration)
  | field (field : FieldDeclaration)
  | constructor (constructor : ConstructorDeclaration)

namespace MethodDeclaration

/-- A declared parameter list that is not empty must be as long as the list of host types. -/
def fits (m : MethodDeclaration) : Bool :=
  m.declaredParams.isEmpty || m.declaredParams.length = m.params.length

def method (m : MethodDeclaration) (id : TypeId) (scope : Description) : Method where
  name := m.name
  declaring := some id
  returns := m.declaredReturns.elim (HostType.erasedResult m.result) scope.erase
  params := if m.declaredParams.isEmpty then m.params.map (·.erased)
    else m.declaredParams.map scope.erase
  declaredReturns := m.declaredReturns.getD (HostType.exprResult m.result)
  declaredParams := if m.declaredParams.isEmpty then m.params.map (·.expr) else m.declaredParams
  visibility := m.visibility
  isStatic := m.isStatic
  isBridge := m.isBridge
  callable := some (.typed m.params m.result m.body m.passing)

end MethodDeclaration

namespace Storage

def isShared : Storage → Bool
  | global _ => true
  | _ => false

def reader (type : HostType) : Storage → Reader
  | slot key => .slot key type
  | fixed value => .native fun _ => return value
  | global index => .global index type

def writer? (type : HostType) : Storage → Option Writer
  | slot key => some (.slot key type)
  | fixed _ => none
  | global index => some (.global index type)

end Storage

namespace FieldDeclaration

def writer? (f : FieldDeclaration) : Option Writer :=
  if f.isConstant then none else f.storage.writer? f.type

/-- A field that nothing can write to is final. -/
def field (f : FieldDeclaration) (id : TypeId) (scope : Description) : Field where
  name := f.name
  declaring := some id
  type := f.declaredType.elim f.type.erased scope.erase
  declaredType := f.declaredType.getD f.type.expr
  visibility := f.visibility
  isStatic := f.storage.isShared
  isFinal := f.isFinal || f.writer?.isNone
  reader := some (f.storage.reader f.type)
  writer := f.writer?

end FieldDeclaration

namespace ConstructorDeclaration

def constructor (c : ConstructorDeclaration) (id : TypeId) : Constructor where
  declaring := some id
  params := c.params.map (·.erased)
  visibility := c.visibility
  factory := some (.typed c.params none c.body c.passing)

/-- The constructor of a class whose objects need no arguments. -/
def default : ConstructorDeclaration where
  body := .nothing

end ConstructorDeclaration

/-- A link without target has no upcast. -/
def LinkDeclaration.link (l : LinkDeclaration) : Link where
  target := l.base
  args := l.args
  upcast := if l.base.isSome then l.upcast else none

namespace Description

/-- There is at most one constructor without parameters, the first one declared. -/
def addConstructor (d : Description) (c : Constructor) : Description :=
  if c.arity = 0 ∧ d.defaultConstructor?.isSome then d
  else { d with constructors := d.constructors ++ [c] }

@[simp] theorem addConstructor_methods (d : Description) (c : Constructor) :
    (d.addConstructor c).methods = d.methods := by
  unfold addConstructor
  split <;> rfl

@[simp] theorem addConstructor_fields (d : Description) (c : Constructor) :
    (d.addConstructor c).fields = d.fields := by
  unfold addConstructor
  split <;> rfl

/-- A parameter that is already declared is left as it is. -/
def addTypeParameter (d : Description) (p : TypeParameter) : Description :=
  if (d.typeParameter? p.name).isSome then d else { d with typeParameters := d.typeParameters ++ [p] }

@[simp] theorem addTypeParameter_methods (d : Description) (p : TypeParameter) :
    (d.addTypeParameter p).methods = d.methods := by
  unfold addTypeParameter
  split <;> rfl

@[simp] theorem addTypeParameter_fields (d : Description) (p : TypeParameter) :
    (d.addTypeParameter p).fields = d.fields := by
  unfold addTypeParameter
  split <;> rfl

def opened (d : Description) (id : TypeId) (traits : ClassTraits) : Description :=
  let d := if traits.isAbstract then { d with isAbstract := true } else d
  if traits.isDefaultConstructible then d.addConstructor (ConstructorDeclaration.default.constructor id)
  else d

end Description

namespace Schema

/-- Lists the types that the declared expression of a host type mentions. -/
def mentionType (s : Schema) (t : HostType) : Schema := s.mentionAll t.mentioned

/-- Lists the type that a host type erases to. -/
def mentionErased (s : Schema) (t : HostType) : Schema := s.mentionAll t.erased.element.toList

/-- Opens the description of a class under a name, and lists the class if it is new. -/
def reopen (s : Schema) (id : TypeId) (traits : ClassTraits) (name : String) :
    Except Failure Unit × Schema :=
  let s := s.ensure id name .concrete
  match s.rename id name with
  | .ok s => (.ok (), s.update id (·.opened id traits))
  | .error f => (.error f, s)

/-- A base that is new is listed under its default name. -/
def ensureBase (s : Schema) (base : Option TypeId) (category : Category) : Schema :=
  base.elim s fun id => s.ensure id id.defaultName category

def addMethod (s : Schema) (id : TypeId) (m : MethodDeclaration) : Except Failure Unit × Schema :=
  let s := if m.declaredReturns.isNone then m.result.elim s s.mentionType else s
  if m.fits then
    let s := if m.declaredParams.isEmpty then m.params.foldl mentionType s else s
    (.ok (), s.update id fun d => { d with methods := d.methods ++ [m.method id d] })
  else (.error (.signatureLength m.name (s.nameOf id)), s)

def addField (s : Schema) (id : TypeId) (f : FieldDeclaration) : Schema :=
  let s := if f.declaredType.isNone then s.mentionType f.type else s
  s.update id fun d => { d with fields := d.fields ++ [f.field id d] }

def addConstructor (s : Schema) (id : TypeId) (c : ConstructorDeclaration) : Schema :=
  (c.params.foldl mentionErased s).update id (·.addConstructor (c.constructor id))

/-- Adds to the description of a type, which must be listed. -/
def declare (s : Schema) (id : TypeId) (declaration : Declaration) : Except Failure Unit × Schema :=
  match s.known id id.defaultName with
  | .error f => (.error f, s)
  | .ok _ =>
    match declaration with
    | .asInterface => (.ok (), s.update id ({ · with category := .interface, isAbstract := true }))
    | .asAbstract => (.ok (), s.update id ({ · with isAbstract := true }))
    | .typeParameter p => (.ok (), s.update id (·.addTypeParameter p))
    | .superclass l =>
      (.ok (), (s.ensureBase l.base .concrete).update id ({ · with superclass := some l.link }))
    | .interface l =>
      (.ok (), (s.ensureBase l.base .interface).update id fun d =>
        { d with interfaces := d.interfaces ++ [l.link] })
    | .method m => s.addMethod id m
    | .field f => (.ok (), s.addField id f)
    | .constructor c => (.ok (), s.addConstructor id c)

end Schema
end Introspect
