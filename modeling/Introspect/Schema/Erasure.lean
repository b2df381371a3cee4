import Introspect.Schema.Description

/-! Erasure of type expressions in the scope of the type that declares them. -/
namespace Introspect.Description

/-- A variable erases to its bound. Without a bound, or bounded by itself, it is the root type, and so
is a variable that the type does not declare. Bounds are followed `depth` times. -/
def eraseVar (d : Description) : (depth : Nat) → String → RuntimeType
  | 0, _ => .object
  | depth + 1, name =>
    match d.typeParameter? name with
    | none => .object
    | some p =>
      match p.bound with
      | .var bound => if bound = name then .object else d.eraseVar depth bound
      | bound => bound.eraseWith (d.eraseVar depth)

/-- A chain of bounds without cycle is no longer than the list of parameters. -/
def erase (d : Description) (e : TypeExpr) : RuntimeType :=
  e.eraseWith (d.eraseVar d.typeParameters.length)

end Introspect.Description
