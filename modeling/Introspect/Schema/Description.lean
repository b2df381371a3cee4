import Introspect.Host.Callable

/-! What a single type declares: its parameters, the links to its supertypes, and its own members. -/
namespace Introspect

inductive Category
  | void
  | primitive
  | concrete
  | interface
  deriving DecidableEq, Repr

def Category.name : Category → String
  | void => "void"
  | primitive => "primitive"
  | concrete => "class"
  | interface => "interface"

/-- An empty bound is the root type. -/
structure TypeParameter where
  name : String
  bound : TypeExpr := .empty

/-- A link to a superclass or an interface. Without arguments it is raw. The upcast, where there is
one, is known by the text it leaves in the record of upcasts. -/
structure Link where
  target : Option TypeId := none
  args : List TypeExpr := []
  upcast : Option String := none

/-- The erased signature stands beside the declared one. A detached member names no declaring type. -/
structure Method where
  name : String
  declaring : Option TypeId
  returns : RuntimeType
  params : List RuntimeType
  declaredReturns : TypeExpr
  declaredParams : List TypeExpr
  visibility : Visibility := .publicAccess
  isStatic : Bool := false
  isBridge : Bool := false
  callable : Option Callable

structure Field where
  name : String
  declaring : Option TypeId
  type : RuntimeType
  declaredType : TypeExpr
  visibility : Visibility := .publicAccess
  isStatic : Bool := false
  isFinal : Bool := false
  reader : Option Reader
  writer : Option Writer

structure Constructor where
  declaring : Option TypeId
  params : List RuntimeType := []
  visibility : Visibility := .publicAccess
  factory : Option Callable

def Method.arity (m : Method) : Nat := m.params.length

def Constructor.arity (c : Constructor) : Nat := c.params.length

structure Description where
  name : String
  category : Category
  isAbstract : Bool := false
  typeParameters : List TypeParameter := []
  superclass : Option Link := none
  interfaces : List Link := []
  methods : List Method := []
  fields : List Field := []
  constructors : List Constructor := []

namespace Description

/-- A type of which nothing is known but its name and category. -/
def placeholder (name : String) (category : Category) : Description := { name, category }

def typeParameter? (d : Description) (name : String) : Option TypeParameter :=
  d.typeParameters.find? (·.name = name)

/-- The superclass link first, then the interface links in order. -/
def links (d : Description) : List Link := d.superclass.toList ++ d.interfaces

/-- The direct supertypes. A link without target leads nowhere. -/
def supertypes (d : Description) : List TypeId := d.links.filterMap (·.target)

/-- The first constructor without parameters. -/
def defaultConstructor? (d : Description) : Option Constructor :=
  d.constructors.find? (·.arity = 0)

end Description
end Introspect
