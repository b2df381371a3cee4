import Introspect.Proofs.Covariance
import Introspect.Proofs.Scoping

/-! What a subtype sees of a declared type refines it. Where the arguments of each link keep to the bounds
of the parameters they fill, the erasure of a declared type holds the erasure of what any subtype sees. -/
namespace Introspect

namespace TypeExpr

mutual

/-- Every type that is applied to arguments is valid. -/
def rawsValid : TypeExpr → Bool
  | plain _ => true
  | var _ => true
  | applied raw args => raw.isValid && rawsValidAll args
  | array component => component.rawsValid

def rawsValidAll : List TypeExpr → Bool
  | [] => true
  | e :: rest => e.rawsValid && rawsValidAll rest

end

mutual

theorem rawsValid_bind {f : String → TypeExpr} :
    (e : TypeExpr) → e.rawsValid → (∀ x ∈ e.vars, (f x).rawsValid) → (e.bind f).rawsValid
  | plain _, _, _ => rfl
  | var x, _, hf => hf x List.mem_cons_self
  | applied raw args, h, hf => by
    simp only [bind, rawsValid, Bool.and_eq_true] at h ⊢
    exact ⟨h.1, rawsValidAll_bindAll args h.2 hf⟩
  | array component, h, hf => rawsValid_bind component h hf

theorem rawsValidAll_bindAll {f : String → TypeExpr} :
    (es : List TypeExpr) → rawsValidAll es → (∀ x ∈ varsOf es, (f x).rawsValid) →
      rawsValidAll (bindAll f es)
  | [], _, _ => rfl
  | e :: rest, h, hf => by
    simp only [bindAll, rawsValidAll, Bool.and_eq_true] at h ⊢
    exact ⟨rawsValid_bind e h.1 fun x hx => hf x (List.mem_append_left _ hx),
      rawsValidAll_bindAll rest h.2 fun x hx => hf x (List.mem_append_right _ hx)⟩

end

theorem isValid_eraseWith_plain (onVar : String → RuntimeType) (t : RuntimeType) :
    ((plain t).eraseWith onVar).isValid := by
  unfold eraseWith
  split_ifs with ht
  · exact ht
  · rfl

theorem isValid_eraseWith {onVar : String → RuntimeType} (hvar : ∀ x, (onVar x).isValid) :
    (e : TypeExpr) → e.rawsValid → (e.eraseWith onVar).isValid
  | plain t, _ => isValid_eraseWith_plain onVar t
  | var x, _ => hvar x
  | applied raw args, h => by
    simp only [rawsValid, Bool.and_eq_true] at h
    exact h.1
  | array component, h => isValid_eraseWith hvar component h

end TypeExpr

namespace Description

/-- Mentions only parameters of the type, and applies only valid types. -/
def Scopes (d : Description) (e : TypeExpr) : Prop :=
  (∀ x ∈ e.vars, (d.typeParameter? x).isSome) ∧ e.rawsValid

instance (d : Description) (e : TypeExpr) : Decidable (d.Scopes e) :=
  inferInstanceAs (Decidable (_ ∧ _))

/-- No array in the expression has a rank that wraps to zero. -/
def ranksFit (d : Description) : TypeExpr → Bool
  | .array component => d.ranksFit component && (d.erase component).array.isArray
  | _ => true

variable {d : Description}

theorem isValid_eraseVar (hbounds : ∀ p ∈ d.typeParameters, p.bound.rawsValid) (depth : Nat)
    (name : String) : (d.eraseVar depth name).isValid := by
  induction depth generalizing name with
  | zero => rfl
  | succ depth ih =>
    unfold eraseVar
    cases hp : d.typeParameter? name with
    | none => rfl
    | some p =>
      have hbound := hbounds p (List.mem_of_find?_eq_some hp)
      dsimp only
      split
      · split_ifs
        · rfl
        · exact ih _
      · exact p.bound.isValid_eraseWith ih hbound

theorem isValid_erase (hbounds : ∀ p ∈ d.typeParameters, p.bound.rawsValid) {e : TypeExpr}
    (he : e.rawsValid) : (d.erase e).isValid :=
  e.isValid_eraseWith (isValid_eraseVar hbounds _) he

end Description

namespace Schema

/-- An argument refines the parameter it fills, and is neither primitive nor an array of primitives. -/
def LinkFits (s : Schema) (d : Description) (l : Link) : Prop :=
  (∀ e ∈ l.args, d.Scopes e) ∧
    ∀ super ∈ l.target.toList, ∀ p ∈ (s.describe super).typeParameters.zip l.args,
      (∀ id ∈ (d.erase p.2).element.toList, ¬ s.isPrimitive (.of id)) ∧
        s.accepts ((s.describe super).erase (.var p.1.name)) (d.erase p.2)

instance (s : Schema) (d : Description) (l : Link) : Decidable (s.LinkFits d l) :=
  inferInstanceAs (Decidable (_ ∧ _))

/-- Bounds and link arguments are in scope and fit. -/
structure WellTyped (s : Schema) : Prop where
  topped : s.Topped
  root : ¬ s.isPrimitive .object
  bounds : ∀ id, ∀ p ∈ (s.describe id).typeParameters, (s.describe id).Scopes p.bound
  links : ∀ id, ∀ l ∈ (s.describe id).links, s.LinkFits (s.describe id) l

/-- Holds it, and if they differ, what is held is neither primitive nor an array of primitives. -/
def Refines (s : Schema) (t u : RuntimeType) : Prop :=
  s.Assignable t u ∧ (t = u ∨ ∀ id ∈ u.element, ¬ s.isPrimitive (.of id))

variable {s : Schema} {t u : RuntimeType}

theorem Refines.refl (h : t.isValid) : s.Refines t t := ⟨.refl h, Or.inl rfl⟩

/-- Arrays of types that refine each other do so too, unless a rank wraps. -/
theorem Refines.array (hroot : ¬ s.isPrimitive .object) (h : s.Refines t u) (hu : u.array.isArray) :
    t.array.isArray ∧ s.Refines t.array u.array := by
  obtain ⟨hassign, hprimitive⟩ := h
  rcases hprimitive with rfl | hprimitive
  · exact ⟨hu, .refl (t := t.array) hassign.isValid_source⟩
  have hwrap : 0 < u.rank + 1 := of_decide_eq_true hu
  cases hassign with
  | same id rank => exact ⟨hu, .same id _, Or.inl rfl⟩
  | @root id rank hvoid =>
    have hid := hprimitive id rfl
    refine ⟨rfl, ?_, Or.inr hprimitive⟩
    by_cases hrank : rank = 0
    · subst hrank
      exact .rootArray (by decide) hroot hid hvoid
    · have hdepth := (rank_lt_iff hwrap).1 (UInt32.pos_iff_ne_zero.2 hrank)
      exact .deeper hdepth.1 hdepth.2 hroot hid
  | reached hobject hsuper hsub hreach =>
    exact ⟨hu, .reached hobject hsuper hsub hreach, Or.inr hprimitive⟩
  | rootArray _ _ hid hvoid => exact ⟨hu, .rootArray hwrap hroot hid hvoid, Or.inr hprimitive⟩
  | deeper _ hdepth _ hid =>
    have hdepth' := (rank_lt_iff hwrap).1 hdepth
    exact ⟨decide_eq_true hdepth'.1, .deeper hdepth'.1 hdepth'.2 hroot hid, Or.inr hprimitive⟩

/-- A substitution that refines every variable refines every expression. -/
theorem refines_bind (hroot : ¬ s.isPrimitive .object) {d d' : Description} {f : String → TypeExpr}
    (hvar : ∀ x, (d.typeParameter? x).isSome → s.Refines (d.erase (.var x)) (d'.erase (f x))) :
    (e : TypeExpr) → d.Scopes e → d'.ranksFit (e.bind f) →
      d.ranksFit e ∧ s.Refines (d.erase e) (d'.erase (e.bind f))
  | .plain t, _, _ => ⟨rfl, .refl (TypeExpr.isValid_eraseWith_plain _ t)⟩
  | .var x, he, _ => ⟨rfl, hvar x (he.1 x List.mem_cons_self)⟩
  | .applied raw args, he, _ => by
    have hraw := he.2
    simp only [TypeExpr.rawsValid, Bool.and_eq_true] at hraw
    exact ⟨rfl, .refl (t := raw) hraw.1⟩
  | .array component, he, hranks => by
    simp only [TypeExpr.bind, Description.ranksFit, Bool.and_eq_true] at hranks ⊢
    obtain ⟨hfit, hrefines⟩ := refines_bind hroot hvar component he hranks.1
    obtain ⟨harray, hrefines'⟩ := hrefines.array hroot hranks.2
    exact ⟨⟨hfit, harray⟩, hrefines'⟩

namespace WellTyped

variable {id super subject declaring : TypeId} {l : Link} {e : TypeExpr} {route : List Link}

theorem scopes_substitute (hs : s.WellTyped) (hl : l ∈ (s.describe id).links)
    (ht : l.target = some super) (he : (s.describe super).Scopes e) :
    (s.describe id).Scopes (s.substitute l e) := by
  have hargs := (hs.links id l hl).1
  refine ⟨declares_substitute (fun arg harg => (hargs arg harg).1) ht he.1, ?_⟩
  rw [substitute_eq_bind]
  refine e.rawsValid_bind he.2 fun x hx => ?_
  rcases substitute_var_cases ht (he.1 x hx) with ⟨p, arg, hp, _, harg⟩ | hplain
  · rw [harg]
    exact (hargs arg (List.of_mem_zip hp).2).2
  · rw [hplain]
    rfl

theorem refines_substitute (hs : s.WellTyped) (hl : l ∈ (s.describe id).links)
    (ht : l.target = some super) (he : (s.describe super).Scopes e)
    (hranks : (s.describe id).ranksFit (s.substitute l e)) :
    (s.describe super).ranksFit e ∧
      s.Refines ((s.describe super).erase e) ((s.describe id).erase (s.substitute l e)) := by
  rw [substitute_eq_bind] at hranks ⊢
  refine refines_bind hs.root (fun x hx => ?_) e he hranks
  rcases substitute_var_cases ht hx with ⟨p, arg, hp, rfl, harg⟩ | hplain
  · rw [harg]
    have hfit := (hs.links id l hl).2 super (by simp [ht]) (p, arg) hp
    exact ⟨assignable_of_accepts hfit.2, Or.inr (by simpa using hfit.1)⟩
  · rw [hplain]
    have hvalid : ((s.describe super).erase (.var x)).isValid :=
      Description.isValid_erase (fun p hp => (hs.bounds super p hp).2) rfl
    have herase : (s.describe id).erase (.plain ((s.describe super).erase (.var x))) =
        (s.describe super).erase (.var x) := if_pos hvalid
    rw [herase]
    exact .refl hvalid

/-- What is seen along a route is in scope and refines what was declared. -/
theorem refines_along (hs : s.WellTyped) (hr : s.Route subject route declaring)
    (he : (s.describe declaring).Scopes e) :
    (s.describe subject).Scopes (s.substituteAlong route e) ∧
      ((s.describe subject).ranksFit (s.substituteAlong route e) →
        (s.describe declaring).ranksFit e ∧
          s.Assignable ((s.describe declaring).erase e)
            ((s.describe subject).erase (s.substituteAlong route e))) := by
  induction hr with
  | here id =>
    refine ⟨he, fun hranks => ⟨hranks, ?_⟩⟩
    have hvalid := Description.isValid_erase (fun p hp => (hs.bounds id p hp).2) he.2
    exact (Refines.refl hvalid).1
  | @step id next top l route hl ht hr ih =>
    obtain ⟨hscopes, hrefines⟩ := ih he
    refine ⟨hs.scopes_substitute hl ht hscopes, fun hranks => ?_⟩
    obtain ⟨hnext, hstep⟩ := hs.refines_substitute hl ht hscopes hranks
    obtain ⟨htop, hrest⟩ := hrefines hnext
    exact ⟨htop, hrest.trans hs.topped hstep.1⟩

end WellTyped

/-- The erasure of a declared type holds the erasure of what a subtype sees of it, as long as no array
there has more brackets than can be counted. -/
theorem accepts_resolveErased {s : Schema} (hacyclic : s.Acyclic) (hs : s.WellTyped)
    {declaring subject : TypeId} (hreach : s.reaches subject declaring) {e : TypeExpr}
    (he : (s.describe declaring).Scopes e)
    (hranks : (s.describe subject).ranksFit (s.resolve e declaring subject)) :
    s.accepts ((s.describe declaring).erase e) (s.resolveErased e declaring subject) := by
  obtain ⟨route, hroute⟩ := hacyclic.exists_route?_of_reaches (reaches_iff.1 hreach)
  unfold resolveErased
  rw [resolve_eq_of_route? hroute] at hranks ⊢
  exact ((hs.refines_along (route_of_route? hroute) he).2 hranks).2.accepts

/-- However a schema came about, the root is no primitive. -/
theorem root_run (operations : List Operation) : ¬ (run operations).isPrimitive .object := by
  intro h
  have hcategory : ((run operations).describe .object).category = .primitive := by
    simpa [isPrimitive, hasCategory, RuntimeType.object, RuntimeType.of] using h
  rcases category_lasting.run operations .object with hc | hc | hc
  all_goals
    rw [hcategory] at hc
    cases hc

/-- It is enough to look at the listed types. -/
theorem wellTyped_run {operations : List Operation} (htop : (run operations).Topped)
    (h : ∀ id ∈ (run operations).types.keys,
      (∀ p ∈ ((run operations).describe id).typeParameters,
        ((run operations).describe id).Scopes p.bound) ∧
      ∀ l ∈ ((run operations).describe id).links,
        (run operations).LinkFits ((run operations).describe id) l) : (run operations).WellTyped where
  topped := htop
  root := root_run operations
  bounds := describe_of_listed (P := fun d => ∀ p ∈ d.typeParameters, d.Scopes p.bound)
    (fun _ _ _ hp => absurd hp List.not_mem_nil) fun id hid => (h id hid).1
  links := describe_of_listed (P := fun d => ∀ l ∈ d.links, (run operations).LinkFits d l)
    (fun _ _ _ hl => absurd hl List.not_mem_nil) fun id hid => (h id hid).2

theorem accepts_resolveErased_forwarded :
    forwarded.Acyclic ∧ forwarded.WellTyped ∧ forwarded.reaches derivedClass storeClass ∧
      forwarded.resolveErased (.array (.var "K")) storeClass derivedClass =
        (RuntimeType.of (.builtIn .list)).array.array ∧
      forwarded.accepts RuntimeType.object.array (RuntimeType.of (.builtIn .list)).array.array := by
  have hs : forwarded.WellTyped :=
    wellTyped_run (topped_run (by decide) (by decide)) (by decide)
  have hreach : forwarded.reaches derivedClass storeClass := by decide
  have haccepts := accepts_resolveErased forwarded_acyclic hs hreach (e := .array (.var "K"))
    (by decide) (by decide)
  exact ⟨forwarded_acyclic, hs, hreach, by decide, haccepts⟩

/-- A parameter bounded by as deep an array as there is. -/
def bottomless : List Operation := [
  .reopen baseClass {} "Base",
  .declare baseClass (.typeParameter { name := "T" }),
  .reopen derivedClass {} "Derived",
  .declare derivedClass (.typeParameter
    { name := "U", bound := .plain { element := some (.builtIn .string), rank := 4294967295 } }),
  .declare derivedClass (.superclass { base := some baseClass, args := [.var "U"] })]

/-- One bracket more, and the rank begins anew at zero. -/
theorem resolveErased_wraps :
    (run bottomless).Acyclic ∧ (run bottomless).WellTyped ∧
      (run bottomless).reaches derivedClass baseClass ∧
      ((run bottomless).describe baseClass).Scopes (.array (.var "T")) ∧
      ((run bottomless).describe baseClass).erase (.array (.var "T")) = RuntimeType.object.array ∧
      (run bottomless).resolveErased (.array (.var "T")) baseClass derivedClass =
        .of (.builtIn .string) ∧
      ¬ (run bottomless).accepts RuntimeType.object.array (.of (.builtIn .string)) := by
  have hacyclic : (run bottomless).Acyclic := acyclic_of_rank classRank (by decide)
  have hs : (run bottomless).WellTyped :=
    wellTyped_run (topped_run (by decide) (by decide)) (by decide)
  exact ⟨hacyclic, hs, by decide, by decide, by decide, by decide, by decide⟩

end Schema
end Introspect
