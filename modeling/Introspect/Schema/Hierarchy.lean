import Introspect.Schema.Basic

/-! The supertype relation over links, which may have cycles, and the assignability of types. -/
namespace Introspect.Schema

def supertypes (s : Schema) (id : TypeId) : List TypeId := (s.describe id).supertypes

/-- Nothing is known about the supertypes of a type that is not listed. -/
theorem supertypes_eq_nil_of_notMem_keys {s : Schema} {id : TypeId} (h : id ∉ s.types.keys) :
    s.supertypes id = [] := by
  rw [supertypes, describe_eq_placeholder h]
  rfl

/-- One step outward from every type found so far. -/
def widen (s : Schema) (found : List TypeId) : List TypeId :=
  (found.flatMap s.supertypes).foldl (fun found id => found.insert id) found

/-- A type and all its supertypes. No path without repetition has more links than there are listed
types. -/
def ancestors (s : Schema) (id : TypeId) : List TypeId := s.size.repeat s.widen [id]

def reaches (s : Schema) (sub super : TypeId) : Bool := super ∈ s.ancestors sub

/-- Assignability of types that are no arrays. The root holds a value of any type but void. -/
def acceptsElement (s : Schema) (target source : TypeId) : Bool :=
  if target = source then true
  else if target = .object then !s.isVoid (.of source)
  else !s.isPrimitive (.of target) && !s.isPrimitive (.of source) && s.reaches source target

/-- Whether a value of type `source` can be used where `target` is expected. Arrays are covariant in
elements that are not primitive, and an array of the root holds deeper arrays. -/
def accepts (s : Schema) (target source : RuntimeType) : Bool :=
  match target.element, source.element with
  | some a, some b =>
    if target = source then true
    else if target.isObject then !s.isVoid source
    else if target.isArray then
      !s.isPrimitive (.of a) && !s.isPrimitive (.of b) &&
        if source.rank = target.rank then s.acceptsElement a b
        else target.rank < source.rank && a = .object
    else !source.isArray && s.acceptsElement a b
  | _, _ => false

end Introspect.Schema
