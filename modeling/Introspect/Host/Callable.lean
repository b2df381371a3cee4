import Introspect.Host.Memory

/-! Host code behind the members of a type: callables, readers and writers. -/
namespace Introspect

/-- The use of one side of a property of a named model on an object, without arguments. -/
abbrev PropertyCall := (model : String) → Side → (property : String) → Option ObjectRef → HostM Value

/-- A body is given the means to use properties, its object and its arguments. -/
abbrev Body := PropertyCall → Option ObjectRef → List Value → HostM Value

/-- How a callable takes its arguments. Those at the places of the order are taken first, and all others after
them, from the last one on. A reference stands for its argument, of which no copy is made. -/
structure Passing where
  order : List Nat := []
  references : List Nat := []

/-- A typed callable takes an argument for each parameter and answers with a value of its result type. -/
inductive Callable
  | typed (params : List HostType) (result : Option HostType) (body : Body) (passing : Passing)
  | untyped (body : Body)

inductive Reader
  | slot (key : String) (type : HostType)
  | global (index : Nat) (type : HostType)
  | native (code : Option ObjectRef → HostM Value)

inductive Writer
  | slot (key : String) (type : HostType)
  | global (index : Nat) (type : HostType)
  | native (code : Option ObjectRef → Value → HostM Unit)

namespace Passing

/-- The places of so many arguments, as they are taken one after the other. -/
def places (p : Passing) (count : Nat) : List Nat := p.order ++ (List.range count).reverse

/-- Why the argument at a place cannot be taken. Its type is looked at before it is copied. -/
def failure? (p : Passing) (types : List HostType) (args : List Value) (place : Nat) : Option Failure :=
  match types[place]?, args[place]? with
  | some t, some v =>
    if v.type? ≠ some t then some .badCast else if place ∈ p.references then none else v.copyFailure?
  | _, _ => none

end Passing

namespace Callable

/-- Takes the arguments for the parameters. The first one that cannot be taken ends it. -/
def unpack (passing : Passing) (types : List HostType) (args : List Value) :
    Except Failure (List Value) :=
  if args.length < types.length then .error .badCast
  else
    match (passing.places types.length).findSome? (passing.failure? types args) with
    | some f => .error f
    | none => .ok ((args.take types.length).map Value.content)

/-- Without a result type there is nothing to answer with. -/
def conform (result : Option HostType) (v : Value) : Value := result.elim .empty (·.conform v)

def run (c : Callable) (call : PropertyCall) (self : Option ObjectRef) (args : List Value) :
    HostM Value :=
  match c with
  | typed params result body passing => do
    let args ← liftExcept (unpack passing params args)
    let v ← body call self args
    return conform result v
  | untyped body => body call self args

/-- Runs on a new object, which is made once the arguments are taken. -/
def construct (c : Callable) (call : PropertyCall) (args : List Value) : HostM ObjectRef :=
  match c with
  | typed params _ body passing => do
    let args ← liftExcept (unpack passing params args)
    onNew (body call · args)
  | untyped body => onNew (body call · args)
where
  onNew (code : Option ObjectRef → HostM Value) : HostM ObjectRef := do
    let self ← modifyGetThe Memory Memory.allocate
    let _ ← code (some self)
    return self

end Callable

namespace Reader

/-- The value is copied out. -/
def run (r : Reader) (self : Option ObjectRef) : HostM Value :=
  match r with
  | slot key type => do liftExcept (type.conform ((← getThe Memory).load self key)).copy
  | global index type => do liftExcept (type.conform ((← getThe Memory).global index).value).copy
  | native code => code self

end Reader

namespace Writer

/-- A slot changes only if the assignment works. A global is assigned in place. -/
def run (w : Writer) (self : Option ObjectRef) (v : Value) : HostM Unit :=
  match w with
  | slot key type => do
    let v ← liftExcept (type.assign v)
    modifyThe Memory (·.store self key v)
  | global index type => do
    liftExcept (type.check v)
    (← modifyGetThe Memory (·.assignGlobal index v)).forM throw
  | native code => code self v

end Writer
end Introspect
