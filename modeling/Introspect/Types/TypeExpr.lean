import Introspect.Types.RuntimeType

/-! Type expressions as written in declarations, with type variables. -/
namespace Introspect

inductive TypeExpr
  | plain (type : RuntimeType)
  | var (name : String)
  | applied (raw : RuntimeType) (args : List TypeExpr)
  | array (component : TypeExpr)
  deriving Repr, Inhabited

namespace TypeExpr

def empty : TypeExpr := plain .invalid

def isEmpty : TypeExpr → Bool
  | plain t => !t.isValid
  | _ => false

mutual

def vars : TypeExpr → List String
  | plain _ => []
  | var name => [name]
  | applied _ args => varsOf args
  | array component => component.vars

def varsOf : List TypeExpr → List String
  | [] => []
  | e :: rest => e.vars ++ varsOf rest

end

mutual

/-- Replaces every variable. -/
def bind (f : String → TypeExpr) : TypeExpr → TypeExpr
  | plain t => plain t
  | var name => f name
  | applied raw args => applied raw (bindAll f args)
  | array component => array (component.bind f)

def bindAll (f : String → TypeExpr) : List TypeExpr → List TypeExpr
  | [] => []
  | e :: rest => e.bind f :: bindAll f rest

end

/-- The erased type: arguments are dropped, an empty expression is the root, and `onVar` decides
about variables. -/
def eraseWith (onVar : String → RuntimeType) : TypeExpr → RuntimeType
  | plain t => if t.isValid then t else .object
  | var name => onVar name
  | applied raw _ => raw
  | array component => (component.eraseWith onVar).array

mutual

def text (nameOf : RuntimeType → String) : TypeExpr → String
  | plain t => if t.isValid then nameOf t else ""
  | var name => name
  | applied raw args => nameOf raw ++ "<" ++ ", ".intercalate (textAll nameOf args) ++ ">"
  | array component => component.text nameOf ++ "[]"

def textAll (nameOf : RuntimeType → String) : List TypeExpr → List String
  | [] => []
  | e :: rest => e.text nameOf :: textAll nameOf rest

end

end TypeExpr
end Introspect
