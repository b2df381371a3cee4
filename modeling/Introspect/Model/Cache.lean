import Introspect.Model.Basic

/-! A source of models that keeps the first one built of each type. Models are stamped, so that two
models with equal contents can be told apart. -/
namespace Introspect

structure ModelCache where
  options : ModelOptions := {}
  isEnabled : Bool := true
  stored : Table TypeId (Nat × Model) := ∅

namespace ModelCache

def size (c : ModelCache) : Nat := c.stored.size

/-- A model built now gets the stamp. A disabled cache is neither read nor changed. -/
def find (c : ModelCache) (s : Schema) (type : TypeId) (stamp : Nat) :
    Except Failure ((Nat × Model) × ModelCache) :=
  match if c.isEnabled then c.stored.get? type else none with
  | some model => .ok (model, c)
  | none => do
    let built := (stamp, ← Model.build s type c.options)
    return (built, if c.isEnabled then { c with stored := c.stored.insert type built } else c)

/-- Models already stored are kept. -/
def setEnabled (c : ModelCache) (enabled : Bool) : ModelCache := { c with isEnabled := enabled }

def clear (c : ModelCache) : ModelCache := { c with stored := ∅ }

end ModelCache
end Introspect
