import Introspect.Proofs.MemberTypes
import Introspect.Proofs.Refinement

/-! A class that declares nothing but a raw link to its superclass shows the members of the superclass,
each through one link more and with the type it has there. -/
namespace Introspect

namespace Schema

/-- Declares nothing but a raw link to its superclass. -/
structure Bare (s : Schema) (id : TypeId) (l : Link) (base : TypeId) : Prop where
  superclass : (s.describe id).superclass = some l
  target : l.target = some base
  raw : l.args = []
  typeParameters : (s.describe id).typeParameters = []
  interfaces : (s.describe id).interfaces = []
  methods : (s.describe id).methods = []
  fields : (s.describe id).fields = []

variable {s : Schema} {id base owner : TypeId} {l : Link} {route : List Link}

namespace Bare

theorem superclass?_eq (h : s.Bare id l base) : s.superclass? id = some (l, base) :=
  superclass?_eq_some_iff.2 ⟨h.superclass, h.target⟩

theorem links_eq (h : s.Bare id l base) : (s.describe id).links = [l] := by
  rw [Description.links, h.superclass, h.interfaces]
  rfl

theorem shownMethods_eq (h : s.Bare id l base) (hacyclic : s.Acyclic) (hid : id ≠ .object) :
    s.shownMethods id = (s.shownMethods base).map (.through l) := by
  have hnone : s.classVisits (id, []) = [] := by
    simp [classVisits, ownMethods, h.methods, h.interfaces]
  have hvisits : s.visits id = (s.visits base).map (.through l) := by
    rw [hacyclic.visits_eq hid, hnone, h.superclass?_eq, List.nil_append]
  rw [Schema.shownMethods_eq, Schema.shownMethods_eq, hvisits]
  exact eraseDupsBy_map (fun _ _ => rfl) _

theorem shownFields_eq (h : s.Bare id l base) (hacyclic : s.Acyclic) :
    s.shownFields id = (s.shownFields base).map (.through l) := by
  rw [hacyclic.shownFields_eq, h.fields, h.superclass?_eq]
  rfl

/-- All routes from the class lead through its superclass. -/
theorem route?_eq (h : s.Bare id l base) (hacyclic : s.Acyclic)
    (hroute : s.route? base owner = some route) : s.route? id owner = some (l :: route) := by
  have hne : id ≠ owner := by
    rintro rfl
    have hsuper : s.Supertype id base := supertype_of_superclass h.superclass h.target
    exact hacyclic id (.head' hsuper (route_of_route? hroute).reaches)
  rw [hacyclic.route?_eq, if_neg hne, onward?, h.links_eq]
  simp [h.target, hroute]

/-- A raw link leaves erasures in place of the variables, and nothing is left to erase. -/
theorem erase_substitute (h : s.Bare id l base)
    (hbounds : ∀ p ∈ (s.describe base).typeParameters, p.bound.rawsValid) (e : TypeExpr) :
    (s.describe id).erase (s.substitute l e) = (s.describe base).erase e := by
  have hvar (x : String) :
      (s.describe id).erase (s.substitute l (.var x)) = (s.describe base).erase (.var x) := by
    cases hx : (s.describe base).typeParameter? x with
    | none =>
      have hundeclared : (s.describe id).typeParameter? x = none := by
        simp [Description.typeParameter?, h.typeParameters]
      rw [substitute_var_of_undeclared h.target hx, Description.erase_var_of_undeclared hx,
        Description.erase_var_of_undeclared hundeclared]
    | some p =>
      have hplain : s.substitute l (.var x) = .plain ((s.describe base).erase (.var x)) := by
        have hdeclared : ((s.describe base).typeParameter? x).isSome := by rw [hx, Option.isSome_some]
        rcases substitute_var_cases h.target hdeclared with ⟨p, e, hm, _⟩ | hplain
        · simp [h.raw] at hm
        · exact hplain
      rw [hplain]
      exact if_pos (Description.isValid_erase hbounds (e := .var x) rfl)
  rw [substitute_eq_bind, Description.erase, TypeExpr.eraseWith_bind]
  congr 1
  funext x
  exact hvar x

variable (h : s.Bare id l base) (hacyclic : s.Acyclic)
  (hbounds : ∀ p ∈ (s.describe base).typeParameters, p.bound.rawsValid)
include h hacyclic hbounds

/-- Where the superclass has a route to the declaring type, the class sees what the superclass sees. -/
theorem resolveErased_eq (hroute : s.Route base route owner) (e : TypeExpr) :
    s.resolveErased e owner id = s.resolveErased e owner base := by
  obtain ⟨first, hfirst⟩ := hacyclic.exists_route? hroute
  unfold resolveErased
  rw [resolve_eq_of_route? (h.route?_eq hacyclic hfirst), resolve_eq_of_route? hfirst]
  exact h.erase_substitute hbounds _

theorem returnsAt_eq (hroute : s.Route base route owner) {m : Method} (hm : m.declaring = some owner) :
    s.returnsAt m id = s.returnsAt m base := by
  simp only [returnsAt, hm, h.resolveErased_eq hacyclic hbounds hroute]

theorem paramsAt_eq (hroute : s.Route base route owner) {m : Method} (hm : m.declaring = some owner) :
    s.paramsAt m id = s.paramsAt m base := by
  simp only [paramsAt, hm, h.resolveErased_eq hacyclic hbounds hroute]

theorem fieldTypeAt_eq (hroute : s.Route base route owner) {f : Field} (hf : f.declaring = some owner) :
    s.fieldTypeAt f id = s.fieldTypeAt f base := by
  simp only [fieldTypeAt, hf, h.resolveErased_eq hacyclic hbounds hroute]

end Bare
end Schema
end Introspect
