import Introspect.Schema.Basic
import Introspect.Schema.Erasure

/-! Declared types seen from a subtype. The variables of the declaring type are replaced along the
links that lead from the subject to it. -/
namespace Introspect

/-- Expresses a type of the target of a link in terms of the type that holds the link. A variable of
the target without an argument is left with its erasure, and a variable that the target does not
declare stays. -/
def Link.substitute (l : Link) (target : Description) (e : TypeExpr) : TypeExpr :=
  e.bind fun name =>
    match target.typeParameters.findIdx? (·.name = name) with
    | none => .var name
    | some i => l.args.getD i (.plain (target.erase (.var name)))

namespace Schema

def substitute (s : Schema) (l : Link) (e : TypeExpr) : TypeExpr :=
  match l.target with
  | some id => l.substitute (s.describe id) e
  | none => e

/-- The first chain of at most `depth` links from a type to a supertype. Superclasses are followed
before interfaces. -/
def routeWithin (s : Schema) (target : TypeId) : (depth : Nat) → TypeId → Option (List Link)
  | 0, source => if source = target then some [] else none
  | depth + 1, source =>
    if source = target then some []
    else (s.describe source).links.findSome? fun l =>
      match l.target with
      | some id => (s.routeWithin target depth id).map (l :: ·)
      | none => none

def route? (s : Schema) (source target : TypeId) : Option (List Link) := s.routeWithin target s.size source

/-- Carries an expression of the last target of a route back to where the route starts. -/
def substituteAlong (s : Schema) (route : List Link) (e : TypeExpr) : TypeExpr :=
  route.foldr s.substitute e

/-- A variable of `declaring` in terms of the variables of `current`, where a route leads there. -/
def binding? (s : Schema) (name : String) (declaring current : TypeId) : Option TypeExpr :=
  (s.route? current declaring).map fun route => s.substituteAlong route (.var name)

/-- A declared type as `subject` sees it. Where no route leads to the declaring type, its variables
are erased. -/
def resolve (s : Schema) (e : TypeExpr) (declaring subject : TypeId) : TypeExpr :=
  e.bind fun name =>
    (s.binding? name declaring subject).getD (.plain ((s.describe declaring).erase (.var name)))

def resolveErased (s : Schema) (e : TypeExpr) (declaring subject : TypeId) : RuntimeType :=
  (s.describe subject).erase (s.resolve e declaring subject)

/-- A detached method, and one without a declared result, keeps its erased result type. -/
def returnsAt (s : Schema) (m : Method) (subject : TypeId) : RuntimeType :=
  match m.declaring with
  | some id =>
    if m.declaredReturns.isEmpty then m.returns else s.resolveErased m.declaredReturns id subject
  | none => m.returns

/-- A declared list of another length than the erased one says nothing. -/
def paramsAt (s : Schema) (m : Method) (subject : TypeId) : List RuntimeType :=
  match m.declaring with
  | some id =>
    if m.declaredParams.length = m.params.length then
      m.declaredParams.map (s.resolveErased · id subject)
    else m.params
  | none => m.params

def fieldTypeAt (s : Schema) (f : Field) (subject : TypeId) : RuntimeType :=
  match f.declaring with
  | some id => if f.declaredType.isEmpty then f.type else s.resolveErased f.declaredType id subject
  | none => f.type

end Schema
end Introspect
