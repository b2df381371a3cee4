import Introspect.Schema.Basic

/-! Accessors: one side of a property, ready for use. An accessor copies what it needs, so that later
declarations do not change it. -/
namespace Introspect

/-- What every accessor knows of its member: names, the upcasts that lead to it, and who may use it. -/
structure MemberAccess where
  name : String
  declaring : String
  visibility : Visibility := .publicAccess
  isStatic : Bool := false
  upcasts : List (Option String) := []
  type : RuntimeType
  bypass : Bool := true

structure MethodAccessor extends MemberAccess where
  arity : Nat
  callable : Option Callable

inductive FieldUse
  | read (reader : Option Reader)
  | write (writer : Option Writer)

structure FieldAccessor extends MemberAccess where
  use : FieldUse

/-- An ambiguous accessor can be asked for its type, but every use of it fails. -/
inductive Accessor
  | method (accessor : MethodAccessor)
  | field (accessor : FieldAccessor)
  | ambiguous (ambiguity : Ambiguity) (type : RuntimeType)

/-- Runs the host code of a member. Its failure is the cause of the failure of the member. -/
def HostM.forMember {α : Type} (site : Site) (code : HostM α) : HostM α :=
  tryCatch code fun cause => throw (.failed site cause)

/-- Host code that is absent cannot run. -/
def HostM.require {α : Type} : Option α → HostM α
  | some a => return a
  | none => throw .missingCallable

namespace MemberAccess

/-- The first of the reasons not to try the member at all. -/
def refusal? (a : MemberAccess) (arity : Nat) (self : Option ObjectRef) (args : List Value) :
    Option Refusal :=
  if a.visibility ≠ .publicAccess ∧ !a.bypass then some (.inaccessible a.visibility)
  else if args.length ≠ arity then some (.argumentCount arity args.length)
  else if !a.isStatic ∧ self.isNone then some .nullInstance
  else none

/-- A static member has no object. Any other is reached by the upcasts to its declaring type. -/
def reach (a : MemberAccess) (self : Option ObjectRef) : HostM (Option ObjectRef) :=
  if a.isStatic then return none
  else do
    modifyThe Memory (·.upcast a.upcasts)
    return self

end MemberAccess

def MethodAccessor.site (m : MethodAccessor) : Site := .method m.name m.declaring

namespace FieldAccessor

def isRead (f : FieldAccessor) : Bool :=
  match f.use with
  | .read _ => true
  | .write _ => false

def arity (f : FieldAccessor) : Nat := if f.isRead then 0 else 1

def site (f : FieldAccessor) : Site :=
  if f.isRead then .read f.name f.declaring else .write f.name f.declaring

end FieldAccessor

namespace Accessor

def type : Accessor → RuntimeType
  | method m => m.type
  | field f => f.type
  | ambiguous _ type => type

def isAmbiguous : Accessor → Bool
  | ambiguous _ _ => true
  | _ => false

/-- The name of the member behind the accessor. -/
def member : Accessor → String
  | method m => m.name
  | field f => f.name
  | ambiguous _ _ => ""

/-- Uses the member on an object. That a field cannot be written is found after the upcasts. -/
def invoke (a : Accessor) (call : PropertyCall) (self : Option ObjectRef) (args : List Value) :
    HostM Value :=
  match a with
  | ambiguous ambiguity _ => throw (.ambiguous ambiguity)
  | method m =>
    match m.refusal? m.arity self args with
    | some reason => throw (.refused m.site reason)
    | none => do
      let self ← m.reach self
      HostM.forMember m.site do
        let callable ← HostM.require m.callable
        callable.run call self args
  | field f =>
    match f.refusal? f.arity self args with
    | some reason => throw (.refused f.site reason)
    | none => do
      let self ← f.reach self
      match f.use with
      | .read reader => HostM.forMember f.site do
        let reader ← HostM.require reader
        reader.run self
      | .write none => throw (.refused f.site .readOnly)
      | .write (some writer) => do
        HostM.forMember f.site (writer.run self (args.headD .empty))
        return .empty

/-- The property calls open to host code, nested at most `depth` deep. -/
def propertyCall (find : String → Side → String → Except Failure Accessor) :
    (depth : Nat) → PropertyCall
  | 0 => fun _ _ _ _ => throw .nestingTooDeep
  | depth + 1 => fun model side property self => do
    let accessor ← liftExcept (find model side property)
    accessor.invoke (propertyCall find depth) self []

end Accessor

/-- Makes a new object and runs the constructor on it. A detached constructor names no type. -/
def Constructor.construct (c : Constructor) (s : Schema) (call : PropertyCall) (args : List Value) :
    HostM ObjectRef :=
  let site := Site.construction (c.declaring.elim "unknown" s.nameOf)
  if args.length ≠ c.arity then throw (.refused site (.argumentCount c.arity args.length))
  else match c.factory with
    | none => throw (.refused site .noFactory)
    | some factory => HostM.forMember site (factory.construct call args)

end Introspect
