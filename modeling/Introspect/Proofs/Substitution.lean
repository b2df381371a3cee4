import Introspect.Proofs.Routes

/-! Laws of substitution in type expressions. A link, a route of links and the view of a subtype are all
substitutions, and one after the other is again one. -/
namespace Introspect

namespace TypeExpr

mutual

theorem bind_var : (e : TypeExpr) → e.bind var = e
  | plain _ => rfl
  | var _ => rfl
  | applied raw args => congrArg (applied raw) (bindAll_var args)
  | array component => congrArg array (bind_var component)

theorem bindAll_var : (es : List TypeExpr) → bindAll var es = es
  | [] => rfl
  | e :: rest => by rw [bindAll, bind_var e, bindAll_var rest]

end

mutual

theorem bind_bind (f g : String → TypeExpr) :
    (e : TypeExpr) → (e.bind f).bind g = e.bind fun x => (f x).bind g
  | plain _ => rfl
  | var _ => rfl
  | applied raw args => congrArg (applied raw) (bindAll_bindAll f g args)
  | array component => congrArg array (bind_bind f g component)

theorem bindAll_bindAll (f g : String → TypeExpr) :
    (es : List TypeExpr) → bindAll g (bindAll f es) = bindAll (fun x => (f x).bind g) es
  | [] => rfl
  | e :: rest => by rw [bindAll, bindAll, bindAll, bind_bind f g e, bindAll_bindAll f g rest]

end

/-- Erasure after a substitution is erasure by what is put in. -/
theorem eraseWith_bind (f : String → TypeExpr) (onVar : String → RuntimeType) :
    (e : TypeExpr) → (e.bind f).eraseWith onVar = e.eraseWith fun x => (f x).eraseWith onVar
  | plain _ => rfl
  | var _ => rfl
  | applied _ _ => rfl
  | array component => congrArg RuntimeType.array (eraseWith_bind f onVar component)

mutual

/-- What a substitution leaves are the variables of what it puts in. -/
theorem mem_vars_bind_iff (f : String → TypeExpr) (x : String) :
    (e : TypeExpr) → (x ∈ (e.bind f).vars ↔ ∃ y ∈ e.vars, x ∈ (f y).vars)
  | plain _ => by simp [bind, vars]
  | var _ => by simp [bind, vars]
  | applied _ args => mem_varsOf_bindAll_iff f x args
  | array component => mem_vars_bind_iff f x component

theorem mem_varsOf_bindAll_iff (f : String → TypeExpr) (x : String) :
    (es : List TypeExpr) → (x ∈ varsOf (bindAll f es) ↔ ∃ y ∈ varsOf es, x ∈ (f y).vars)
  | [] => by simp [bindAll, varsOf]
  | e :: rest => by
    simp only [bindAll, varsOf, List.mem_append, mem_vars_bind_iff f x e,
      mem_varsOf_bindAll_iff f x rest, or_and_right, exists_or]

end

end TypeExpr

namespace Schema

variable (s : Schema)

theorem substitute_eq_bind (l : Link) (e : TypeExpr) :
    s.substitute l e = e.bind fun x => s.substitute l (.var x) := by
  unfold substitute
  cases l.target with
  | none => exact e.bind_var.symm
  | some id => rfl

theorem substituteAlong_eq_bind (route : List Link) (e : TypeExpr) :
    s.substituteAlong route e = e.bind fun x => s.substituteAlong route (.var x) := by
  induction route with
  | nil => exact e.bind_var.symm
  | cons l rest ih =>
    calc
      s.substitute l (s.substituteAlong rest e)
        = (e.bind fun x => s.substituteAlong rest (.var x)).bind fun x => s.substitute l (.var x) := by
          rw [ih, substitute_eq_bind]
      _ = e.bind fun x => s.substitute l (s.substituteAlong rest (.var x)) := by
          rw [TypeExpr.bind_bind]
          congr 1
          funext x
          rw [← substitute_eq_bind]

theorem substituteAlong_append (route route' : List Link) (e : TypeExpr) :
    s.substituteAlong (route ++ route') e = s.substituteAlong route (s.substituteAlong route' e) :=
  List.foldr_append

variable {s}

/-- A subtype sees a declared type through the route that is found. -/
theorem resolve_eq_of_route? {declaring subject : TypeId} {route : List Link}
    (h : s.route? subject declaring = some route) (e : TypeExpr) :
    s.resolve e declaring subject = s.substituteAlong route e := by
  rw [substituteAlong_eq_bind, resolve]
  simp only [binding?, h, Option.map_some, Option.getD_some]

end Schema
end Introspect
