import Introspect.Host.Callable

/-! Ready-made bodies for members. A typed callable brings the answer of its body to its own result
type, so a body that has nothing to say answers with the empty value. -/
namespace Introspect.Body

def nothing : Body := fun _ _ _ => return .empty

def raise (f : Failure) : Body := fun _ _ _ => throw f

def constant (v : Value) : Body := fun _ _ _ => return v

/-- Stores the arguments, in order, under the keys. -/
def store (keys : List String) : Body := fun _ self args => do
  (keys.zip args).forM fun (key, v) => modifyThe Memory (·.store self key v)
  return .empty

def load (key : String) : Body := fun _ self _ => do
  return (← getThe Memory).load self key

/-- Uses a property of a model on the same object. -/
def property (model : String) (side : Side) (name : String) : Body :=
  fun call self _ => call model side name self

end Introspect.Body
