import Introspect.Proofs.Composition

/-! The scope of declared types. Each link replaces the variables of its target by expressions over the
variables of the type that holds it, or by erased types, so that a subtype sees only variables of its own. -/
namespace Introspect

/-- Mentions only parameters of the type. -/
def Description.Declares (d : Description) (e : TypeExpr) : Prop :=
  ∀ x ∈ e.vars, (d.typeParameter? x).isSome

instance (d : Description) (e : TypeExpr) : Decidable (d.Declares e) :=
  inferInstanceAs (Decidable (∀ x ∈ e.vars, _))

theorem Description.erase_var_of_undeclared {d : Description} {x : String}
    (h : d.typeParameter? x = none) : d.erase (.var x) = .object := by
  change d.eraseVar d.typeParameters.length x = .object
  cases d.typeParameters.length with
  | zero => rfl
  | succ depth => simp [eraseVar, h]

namespace Schema

open Relation

/-- The arguments of a link mention only parameters of the type that holds the link. -/
def LinksScoped (s : Schema) : Prop :=
  ∀ id, ∀ l ∈ (s.describe id).links, ∀ e ∈ l.args, (s.describe id).Declares e

variable {s : Schema} {id super subject declaring : TypeId} {l : Link} {route : List Link} {e : TypeExpr}

/-- A parameter is replaced by the argument that fills it, or by its erasure if there is none. -/
theorem substitute_var_cases (ht : l.target = some super) {x : String}
    (hx : ((s.describe super).typeParameter? x).isSome) :
    (∃ p e, (p, e) ∈ (s.describe super).typeParameters.zip l.args ∧ p.name = x ∧
        s.substitute l (.var x) = e) ∨
      s.substitute l (.var x) = .plain ((s.describe super).erase (.var x)) := by
  have hsome : ((s.describe super).typeParameters.findIdx? (·.name = x)).isSome := by
    rw [List.findIdx?_isSome]
    simpa [Description.typeParameter?] using hx
  obtain ⟨i, hi⟩ := Option.isSome_iff_exists.1 hsome
  obtain ⟨hlt, hname, _⟩ := List.findIdx?_eq_some_iff_getElem.1 hi
  have hsubstitute : s.substitute l (.var x) =
      l.args.getD i (.plain ((s.describe super).erase (.var x))) := by
    simp [substitute, ht, Link.substitute, TypeExpr.bind, hi]
  rw [hsubstitute]
  by_cases hargs : i < l.args.length
  · left
    refine ⟨(s.describe super).typeParameters[i], l.args[i], ?_, by simpa using hname, by simp [hargs]⟩
    exact List.mem_iff_getElem?.2 ⟨i, List.getElem?_zip_eq_some.2
      ⟨List.getElem?_eq_getElem hlt, List.getElem?_eq_getElem hargs⟩⟩
  · right
    simp [hargs]

/-- A variable that the target does not declare passes the link as it is. -/
theorem substitute_var_of_undeclared (ht : l.target = some super) {x : String}
    (hx : (s.describe super).typeParameter? x = none) : s.substitute l (.var x) = .var x := by
  have hindex : (s.describe super).typeParameters.findIdx? (·.name = x) = none := by
    simpa [Description.typeParameter?] using hx
  simp [substitute, ht, Link.substitute, TypeExpr.bind, hindex]

/-- Seen through a link, an expression of the target mentions parameters of the holder. -/
theorem declares_substitute (hargs : ∀ arg ∈ l.args, (s.describe id).Declares arg)
    (ht : l.target = some super) (he : (s.describe super).Declares e) :
    (s.describe id).Declares (s.substitute l e) := by
  intro x hx
  rw [substitute_eq_bind, TypeExpr.mem_vars_bind_iff] at hx
  obtain ⟨y, hy, hx⟩ := hx
  rcases substitute_var_cases ht (he y hy) with ⟨p, arg, hp, _, harg⟩ | hplain
  · rw [harg] at hx
    exact hargs arg (List.of_mem_zip hp).2 x hx
  · rw [hplain] at hx
    exact absurd hx List.not_mem_nil

theorem LinksScoped.declares_substituteAlong (hs : s.LinksScoped) (hr : s.Route subject route declaring)
    (he : (s.describe declaring).Declares e) :
    (s.describe subject).Declares (s.substituteAlong route e) := by
  induction hr with
  | here => exact he
  | step hl ht _ ih => exact declares_substitute (hs _ _ hl) ht (ih he)

theorem Acyclic.isSome_binding?_iff (h : s.Acyclic) {x : String} :
    (s.binding? x declaring subject).isSome ↔ ReflTransGen s.Supertype subject declaring := by
  rw [binding?, Option.isSome_map, Option.isSome_iff_exists]
  constructor
  · intro hfound
    obtain ⟨route, hroute⟩ := hfound
    exact (route_of_route? hroute).reaches
  · exact h.exists_route?_of_reaches

/-- Where links do not run in circles, a variable is bound in just the subtypes of the type that declares
it, and if link arguments keep to their scope, a subtype sees only parameters of its own. -/
theorem resolve_scoped (s : Schema) (h : s.Acyclic) :
    (∀ x declaring subject,
      (s.binding? x declaring subject).isSome ↔ ReflTransGen s.Supertype subject declaring) ∧
    (s.LinksScoped → ∀ declaring subject e, (s.describe declaring).Declares e →
      ReflTransGen s.Supertype subject declaring →
        (s.describe subject).Declares (s.resolve e declaring subject)) := by
  refine ⟨fun x declaring subject => h.isSome_binding?_iff, ?_⟩
  intro hs declaring subject e he hreach
  obtain ⟨route, hroute⟩ := h.exists_route?_of_reaches hreach
  rw [resolve_eq_of_route? hroute]
  exact hs.declares_substituteAlong (route_of_route? hroute) he

/-- A list is extended raw, and of two parameters one is filled. -/
theorem resolve_scoped_forwarded :
    forwarded.Acyclic ∧ forwarded.LinksScoped ∧
      (forwarded.binding? "K" storeClass derivedClass).isSome ∧
      ¬ (forwarded.binding? "E" (.builtIn .list) baseClass).isSome ∧
      (forwarded.resolve (.var "E") (.builtIn .list) derivedClass).vars = [] ∧
      (forwarded.describe derivedClass).Declares
        (forwarded.resolve (.applied (.of (.builtIn .list)) [.var "K", .var "V"]) storeClass
          derivedClass) ∧
      (forwarded.resolve (.applied (.of (.builtIn .list)) [.var "K", .var "V"]) storeClass
        derivedClass).vars = ["E"] := by
  have hs : forwarded.LinksScoped :=
    describe_of_listed (P := fun d => ∀ l ∈ d.links, ∀ e ∈ l.args, d.Declares e)
      (fun _ _ _ hl => absurd hl List.not_mem_nil) (by decide)
  obtain ⟨hbound, hscoped⟩ := resolve_scoped forwarded forwarded_acyclic
  have hreach : forwarded.reaches derivedClass storeClass := by decide
  have hapart : ¬ forwarded.reaches baseClass (.builtIn .list) := by decide
  rw [reaches_iff] at hreach hapart
  refine ⟨forwarded_acyclic, hs, (hbound _ _ _).2 hreach, mt (hbound _ _ _).1 hapart, by decide, ?_,
    by decide⟩
  exact hscoped hs storeClass derivedClass _ (by decide) hreach

end Schema
end Introspect
