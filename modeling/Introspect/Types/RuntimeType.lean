import Introspect.Types.TypeId

/-! Erased types: what is left of a type at run time. -/
namespace Introspect

/-- An element and an array rank. A type without element is invalid, whatever its rank. -/
structure RuntimeType where
  element : Option TypeId := none
  rank : UInt32 := 0
  deriving DecidableEq, Repr, Inhabited

namespace RuntimeType

def invalid : RuntimeType := {}

def of (id : TypeId) : RuntimeType := { element := some id }

def object : RuntimeType := of .object

def isValid (t : RuntimeType) : Bool := t.element.isSome

def isArray (t : RuntimeType) : Bool := 0 < t.rank

def isBool (t : RuntimeType) : Bool := t = of (.builtIn .bool)

def isObject (t : RuntimeType) : Bool := t = object

def array (t : RuntimeType) : RuntimeType := { t with rank := t.rank + 1 }

def component (t : RuntimeType) : RuntimeType :=
  if t.isArray then { t with rank := t.rank - 1 } else invalid

end RuntimeType
end Introspect
