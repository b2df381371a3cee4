import Introspect.Model.Accessor
import Introspect.Table

/-! One side of a property model: which names are listed, and what is recorded under each. -/
namespace Introspect

/-- Accessors and types are recorded side by side, and the names stand in the order in which they were
first recorded. -/
structure PropertyTable where
  names : List String := []
  accessors : Table String Accessor := ∅
  types : Table String RuntimeType := ∅

namespace PropertyTable

instance : EmptyCollection PropertyTable := ⟨{}⟩

def contains (t : PropertyTable) (name : String) : Bool := t.accessors.contains name

/-- Takes the place of what was recorded under the name before. -/
def record (t : PropertyTable) (name : String) (a : Accessor) (type : RuntimeType) : PropertyTable where
  names := if t.types.contains name then t.names else t.names ++ [name]
  accessors := t.accessors.insert name a
  types := t.types.insert name type

@[simp] theorem record_accessors (t : PropertyTable) (name : String) (a : Accessor)
    (type : RuntimeType) : (t.record name a type).accessors = t.accessors.insert name a := rfl

@[simp] theorem record_types (t : PropertyTable) (name : String) (a : Accessor)
    (type : RuntimeType) : (t.record name a type).types = t.types.insert name type := rfl

end PropertyTable
end Introspect
