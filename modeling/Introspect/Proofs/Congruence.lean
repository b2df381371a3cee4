import Introspect.Proofs.Reachability
import Introspect.Proofs.Routes

/-! Schemas that agree in everything but the members of their types. Names, assignability, and types as
they are seen from subtypes are the same in both. -/
namespace Introspect

theorem Description.eraseVar_congr {d d' : Description} (h : d.typeParameters = d'.typeParameters)
    (depth : Nat) : d.eraseVar depth = d'.eraseVar depth := by
  induction depth with
  | zero => rfl
  | succ depth ih =>
    funext name
    unfold eraseVar typeParameter?
    rw [h, ih]

theorem Description.erase_congr {d d' : Description} (h : d.typeParameters = d'.typeParameters) :
    d.erase = d'.erase := by
  funext e
  unfold erase
  rw [eraseVar_congr h, h]

namespace Schema

/-- Agree in all that does not concern members. A walk along links comes equally far in both: they list as
many types, or links do not run in circles. -/
structure Congruent (s t : Schema) : Prop where
  name : ∀ id, (s.describe id).name = (t.describe id).name
  primitive : ∀ id, (s.describe id).category = .primitive ↔ (t.describe id).category = .primitive
  void : ∀ id, (s.describe id).category = .void ↔ (t.describe id).category = .void
  typeParameters : ∀ id, (s.describe id).typeParameters = (t.describe id).typeParameters
  superclass : ∀ id, (s.describe id).superclass = (t.describe id).superclass
  interfaces : ∀ id, (s.describe id).interfaces = (t.describe id).interfaces
  steps : s.size = t.size ∨ s.Acyclic

namespace Congruent

variable {s t : Schema} (h : s.Congruent t)
include h

theorem nameOf_eq : s.nameOf = t.nameOf := funext h.name

theorem typeName_eq : s.typeName = t.typeName := by
  funext type
  unfold typeName
  rw [h.nameOf_eq]

theorem isPrimitive_eq : s.isPrimitive = t.isPrimitive := by
  funext type
  simp only [isPrimitive, hasCategory, h.primitive]

theorem isVoid_eq : s.isVoid = t.isVoid := by
  funext type
  simp only [isVoid, hasCategory, h.void]

theorem links_eq (id : TypeId) : (s.describe id).links = (t.describe id).links := by
  unfold Description.links
  rw [h.superclass, h.interfaces]

theorem supertypes_eq : s.supertypes = t.supertypes := by
  funext id
  simp only [supertypes, Description.supertypes, h.links_eq]

theorem supertype_eq : s.Supertype = t.Supertype := by
  unfold Supertype
  rw [h.supertypes_eq]

theorem acyclic (hs : s.Acyclic) : t.Acyclic := by
  unfold Acyclic
  rw [← h.supertype_eq]
  exact hs

theorem heightAtMost_iff (n : Nat) (id : TypeId) : s.HeightAtMost n id ↔ t.HeightAtMost n id := by
  induction n generalizing id with
  | zero => rw [HeightAtMost, HeightAtMost, h.supertypes_eq]
  | succ n ih => simp only [HeightAtMost, h.supertypes_eq, ih]

/-- The one schema's number of steps leads as far as that of the other. -/
theorem size_eq_or_heightAtMost :
    s.size = t.size ∨ ∀ id, s.HeightAtMost (min s.size t.size) id := by
  refine h.steps.imp_right fun hs id => ?_
  rcases Nat.le_total s.size t.size with hle | hle
  · rw [Nat.min_eq_left hle]
    exact hs.heightAtMost id
  · rw [Nat.min_eq_right hle, h.heightAtMost_iff]
    exact (h.acyclic hs).heightAtMost id

theorem reaches_eq : s.reaches = t.reaches := by
  funext sub super
  rw [Bool.eq_iff_iff, reaches_iff, reaches_iff, h.supertype_eq]

theorem acceptsElement_eq : s.acceptsElement = t.acceptsElement := by
  funext target source
  unfold acceptsElement
  rw [h.isPrimitive_eq, h.isVoid_eq, h.reaches_eq]

theorem accepts_eq : s.accepts = t.accepts := by
  funext target source
  unfold accepts
  rw [h.isPrimitive_eq, h.isVoid_eq, h.acceptsElement_eq]

theorem erase_eq (id : TypeId) : (s.describe id).erase = (t.describe id).erase :=
  Description.erase_congr (h.typeParameters id)

theorem substitute_eq : s.substitute = t.substitute := by
  funext l e
  unfold substitute
  cases l.target with
  | none => rfl
  | some id =>
    dsimp only
    unfold Link.substitute
    rw [h.typeParameters, h.erase_eq]

theorem routeWithin_eq (target : TypeId) (depth : Nat) :
    s.routeWithin target depth = t.routeWithin target depth := by
  induction depth with
  | zero => rfl
  | succ depth ih =>
    funext source
    rw [routeWithin_succ, routeWithin_succ, ih, onward?, onward?, h.links_eq]

theorem route?_eq : s.route? = t.route? := by
  funext source target
  unfold route?
  rw [← h.routeWithin_eq]
  rcases h.size_eq_or_heightAtMost with hsize | hheight
  · rw [hsize]
  · exact Schema.routeWithin_eq target (hheight source) (Nat.min_le_left ..) (Nat.min_le_right ..)

theorem resolve_eq : s.resolve = t.resolve := by
  funext e declaring subject
  unfold resolve binding? substituteAlong
  rw [h.route?_eq, h.substitute_eq, h.erase_eq]

theorem resolveErased_eq : s.resolveErased = t.resolveErased := by
  funext e declaring subject
  unfold resolveErased
  rw [h.resolve_eq, h.erase_eq]

theorem returnsAt_eq : s.returnsAt = t.returnsAt := by
  funext m subject
  unfold returnsAt
  rw [h.resolveErased_eq]

theorem paramsAt_eq : s.paramsAt = t.paramsAt := by
  funext m subject
  unfold paramsAt
  rw [h.resolveErased_eq]

theorem fieldTypeAt_eq : s.fieldTypeAt = t.fieldTypeAt := by
  funext f subject
  unfold fieldTypeAt
  rw [h.resolveErased_eq]

theorem signature_eq : s.signature = t.signature := by
  funext m
  unfold signature
  rw [h.typeName_eq]

theorem superclass?_eq : s.superclass? = t.superclass? := by
  funext id
  unfold superclass?
  rw [h.superclass]

theorem lineageWithin_eq (depth : Nat) : s.lineageWithin depth = t.lineageWithin depth := by
  induction depth with
  | zero => rfl
  | succ depth ih =>
    funext id route
    rw [lineageWithin_succ, lineageWithin_succ, ih, h.superclass?_eq]

theorem lineage_eq : s.lineage = t.lineage := by
  funext id
  unfold lineage
  rw [← h.lineageWithin_eq]
  rcases h.size_eq_or_heightAtMost with hsize | hheight
  · rw [hsize]
  · exact Schema.lineageWithin_eq (hheight id) (Nat.min_le_left ..) (Nat.min_le_right ..) []

end Congruent
end Schema
end Introspect
