import Introspect.Proofs.Arguments
import Introspect.Proofs.MemberTypes
import Introspect.Proofs.Options
import Introspect.Proofs.Refinement
import Introspect.Proofs.Termination

/-! Valid types. Where only valid types are applied to arguments, erasure gives a valid type from any point of
view, and so do the properties of every model. -/
namespace Introspect

/-- The expressions that a type holds: bounds, arguments of links, and declared types of members. -/
def Description.expressions (d : Description) : List TypeExpr :=
  d.typeParameters.map (·.bound) ++ d.links.flatMap (·.args) ++
    d.methods.flatMap (fun m => m.declaredReturns :: m.declaredParams) ++ d.fields.map (·.declaredType)

namespace Schema

/-- No type holds an expression in which an invalid type is applied to arguments. -/
def RawsValid (s : Schema) : Prop := ∀ id, ∀ e ∈ (s.describe id).expressions, e.rawsValid

variable {s : Schema} {id declaring subject : TypeId} {l : Link} {route : List Link} {e : TypeExpr}

namespace RawsValid

theorem bounds (h : s.RawsValid) (id : TypeId) :
    ∀ p ∈ (s.describe id).typeParameters, p.bound.rawsValid := by
  intro p hp
  have hbound : p.bound ∈ (s.describe id).typeParameters.map (·.bound) := List.mem_map_of_mem hp
  exact h id p.bound (by simp only [Description.expressions, List.mem_append, hbound, true_or])

theorem args (h : s.RawsValid) (hl : l ∈ (s.describe id).links) (he : e ∈ l.args) : e.rawsValid := by
  have harg : e ∈ (s.describe id).links.flatMap (·.args) := List.mem_flatMap_of_mem hl he
  exact h id e (by simp only [Description.expressions, List.mem_append, harg, true_or, or_true])

theorem method (h : s.RawsValid) {m : Method} (hm : m ∈ (s.describe id).methods)
    (he : e ∈ m.declaredReturns :: m.declaredParams) : e.rawsValid := by
  have hdeclared : e ∈ (s.describe id).methods.flatMap (fun m => m.declaredReturns :: m.declaredParams) :=
    List.mem_flatMap_of_mem hm he
  exact h id e (by simp only [Description.expressions, List.mem_append, hdeclared, true_or, or_true])

theorem field (h : s.RawsValid) {f : Field} (hf : f ∈ (s.describe id).fields) :
    f.declaredType.rawsValid := by
  have hdeclared : f.declaredType ∈ (s.describe id).fields.map (·.declaredType) := List.mem_map_of_mem hf
  exact h id f.declaredType (by simp only [Description.expressions, List.mem_append, hdeclared, or_true])

theorem isValid_erase (h : s.RawsValid) (id : TypeId) (he : e.rawsValid) :
    ((s.describe id).erase e).isValid := Description.isValid_erase (h.bounds id) he

/-- A link puts in its own arguments, or plain types. -/
theorem substitute (h : s.RawsValid) (hl : l ∈ (s.describe id).links) (he : e.rawsValid) :
    (s.substitute l e).rawsValid := by
  rw [substitute_eq_bind]
  refine e.rawsValid_bind he fun x _ => ?_
  unfold Schema.substitute Link.substitute
  cases l.target with
  | none => rfl
  | some super =>
    dsimp only [TypeExpr.bind]
    split
    · rfl
    · next i _ =>
      by_cases hi : i < l.args.length
      · simpa [hi] using h.args hl (List.getElem_mem hi)
      · simp [hi, TypeExpr.rawsValid]

theorem substituteAlong (h : s.RawsValid) (hr : s.Route subject route declaring) (he : e.rawsValid) :
    (s.substituteAlong route e).rawsValid := by
  induction hr with
  | here => exact he
  | step hl _ _ ih => exact h.substitute hl ih

theorem resolve (h : s.RawsValid) (declaring subject : TypeId) (he : e.rawsValid) :
    (s.resolve e declaring subject).rawsValid := by
  refine e.rawsValid_bind he fun x _ => ?_
  unfold binding?
  cases hroute : s.route? subject declaring with
  | none => rfl
  | some route => exact h.substituteAlong (route_of_route? hroute) rfl

theorem isValid_resolveErased (h : s.RawsValid) (declaring subject : TypeId) (he : e.rawsValid) :
    (s.resolveErased e declaring subject).isValid := h.isValid_erase subject (h.resolve declaring subject he)

theorem isValid_returnsAt (h : s.RawsValid) {m : Method} (hm : m ∈ (s.describe id).methods)
    (hd : m.DeclaredBy id) (subject : TypeId) : (s.returnsAt m subject).isValid := by
  simp only [returnsAt, hd.declaring]
  split_ifs with hempty
  · rw [hd.returns hempty]
    rfl
  · exact h.isValid_resolveErased id subject (h.method hm List.mem_cons_self)

theorem isValid_paramsAt (h : s.RawsValid) {m : Method} (hm : m ∈ (s.describe id).methods)
    (hd : m.DeclaredBy id) (subject : TypeId) : ∀ t ∈ s.paramsAt m subject, t.isValid := by
  simp only [paramsAt, hd.declaring, if_pos hd.params]
  intro t ht
  obtain ⟨e, he, rfl⟩ := List.mem_map.1 ht
  exact h.isValid_resolveErased id subject (h.method hm (List.mem_cons_of_mem _ he))

theorem isValid_fieldTypeAt (h : s.RawsValid) {f : Field} (hf : f ∈ (s.describe id).fields)
    (hd : f.DeclaredBy id) (subject : TypeId) : (s.fieldTypeAt f subject).isValid := by
  simp only [fieldTypeAt, hd.declaring]
  split_ifs with hempty
  · rw [hd.type hempty]
    rfl
  · exact h.isValid_resolveErased id subject (h.field hf)

end RawsValid
end Schema

namespace Model

namespace Source

variable {s : Source} {getGroups setGroups : Table String CandidateGroup} {m : Model}

/-- An accessor has the type of a getter method or of a setter method that is shown, or of a field. -/
theorem Built.type_of_shown (h : s.Built getGroups setGroups m) {side : Side} {n : String} {a : Accessor}
    (ha : (m.side side).accessors.get? n = some a) :
    (∃ c ∈ s.schema.shownMethods s.subject, a.type = s.getterType c) ∨
      (∃ c ∈ s.schema.shownMethods s.subject, c.member.arity = 1 ∧ a.type = s.setterType c) ∨
      ∃ f ∈ s.schema.shownFields s.subject, a.type = s.schema.fieldTypeAt f.member s.subject := by
  have htype {typeOf : Candidate → RuntimeType} {c : Candidate} {b : Accessor}
      (hb : b = s.methodAccessor c (typeOf c) ∨ ∃ ambiguity, b = .ambiguous ambiguity (typeOf c)) :
      b.type = typeOf c := by
    rcases hb with rfl | ⟨ambiguity, rfl⟩ <;> rfl
  have hfield {use : Field → Option FieldUse}
      (hoffer : (s.schema.shownFields s.subject).findSome? (s.offer use n) = some a) :
      ∃ f ∈ s.schema.shownFields s.subject, a.type = s.schema.fieldTypeAt f.member s.subject := by
    obtain ⟨f, hf, hoffer⟩ := List.exists_of_findSome?_eq_some hoffer
    unfold offer at hoffer
    split_ifs at hoffer
    obtain ⟨u, _, rfl⟩ := Option.map_eq_some_iff.1 hoffer
    exact ⟨f, hf, rfl⟩
  cases side with
  | getter =>
    rw [Model.side, h.readable] at ha
    rcases Option.or_eq_some_iff.1 ha with hmethod | ⟨_, hoffer⟩
    · obtain ⟨g, hg, rfl⟩ := Option.map_eq_some_iff.1 hmethod
      obtain ⟨c, hc, hgetter⟩ := s.getterOf_mem n g
      rw [h.getters.toList_eq hg] at hc
      exact Or.inl ⟨c, (List.mem_filter.1 (List.mem_filter.1 hc).1).1, htype hgetter⟩
    · exact Or.inr (Or.inr (hfield hoffer))
  | setter =>
    rw [Model.side, h.writable] at ha
    rcases Option.or_eq_some_iff.1 ha with hmethod | ⟨_, hoffer⟩
    · obtain ⟨g, hg, rfl⟩ := Option.map_eq_some_iff.1 hmethod
      obtain ⟨c, hc, hsetter⟩ := s.setterOf_mem (.recordAll s.getterOf getGroups) n g
      rw [h.setters.toList_eq hg] at hc
      obtain ⟨hshown, hcandidate⟩ := List.mem_filter.1 (List.mem_filter.1 hc).1
      simp only [Candidate.isSetter, Bool.and_eq_true, decide_eq_true_eq] at hcandidate
      exact Or.inr (Or.inl ⟨c, hshown, hcandidate.1, htype hsetter⟩)
    · exact Or.inr (Or.inr (hfield hoffer))

/-- The types that a model gives to properties are valid. -/
private theorem isValid_of_propertyType (hschema : s.schema.Built) (h : s.schema.RawsValid)
    (hm : build s.schema s.subject s.options = .ok m) {side : Side} {n : String} {t : RuntimeType}
    (ht : m.propertyType s.schema side n = .ok t) : t.isValid := by
  obtain ⟨getGroups, setGroups, hbuilt⟩ := s.built hm
  have htype : (m.side side).types.get? n = some t := by
    unfold propertyType at ht
    cases hget : (m.side side).types.get? n with
    | none => rw [hget] at ht; cases ht
    | some u => rw [hget] at ht; cases ht; rfl
  rw [s.types_get?_of_build hm side n] at htype
  obtain ⟨a, ha, rfl⟩ := Option.map_eq_some_iff.1 htype
  rcases hbuilt.type_of_shown ha with ⟨c, hc, htype⟩ | ⟨c, hc, harity, htype⟩ | ⟨f, hf, htype⟩
  · rw [htype]
    exact h.isValid_returnsAt (Schema.shownMethods_listed s.subject c hc).2
      (hschema.method_declaredBy hc) s.subject
  · have hvalid := h.isValid_paramsAt (Schema.shownMethods_listed s.subject c hc).2
      (hschema.method_declaredBy hc) s.subject
    -- a setter takes one argument, so that the type is not the one that stands for none
    obtain ⟨param, hparam⟩ := List.length_eq_one_iff.1
      ((s.schema.length_paramsAt c.member s.subject).trans harity)
    rw [htype, setterType, hparam]
    exact hvalid param (by rw [hparam]; exact List.mem_singleton_self param)
  · rw [htype]
    exact h.isValid_fieldTypeAt (Schema.member_mem_fields hf) (hschema.field_declaredBy hf) s.subject

end Source

/-- Erasure ends for every expression where no bound leads back to a parameter other than one that is its own
bound, and it ends with the type that following as many bounds as there are parameters gives. Where only valid
types are applied to arguments, what erasure gives is valid, in every type and for what any type sees of
another. Then also the types of all properties are valid, in the models of all types. -/
theorem erased_types_valid :
    (∀ d : Description, d.BoundsAcyclic → ∀ e, d.Erases e (d.erase e) ∧ ∀ t, d.Erases e t → t = d.erase e) ∧
    (∀ s : Schema, s.RawsValid → ∀ e : TypeExpr, e.rawsValid →
      (∀ id, ((s.describe id).erase e).isValid) ∧
        ∀ declaring subject, (s.resolveErased e declaring subject).isValid) ∧
    ∀ s : Schema, s.Built → s.RawsValid → ∀ subject options, ∃ m, build s subject options = .ok m ∧
      ∀ side n t, m.propertyType s side n = .ok t → t.isValid := by
  refine ⟨?_, ?_, ?_⟩
  · exact fun d h e => ⟨h.erases e, fun t ht => ht.unique (h.erases e)⟩
  · exact fun s h e he => ⟨fun id => h.isValid_erase id he, fun declaring subject =>
      h.isValid_resolveErased declaring subject he⟩
  · intro schema hschema h subject options
    let s : Source := { schema, subject, options }
    obtain ⟨m, hm, _⟩ := s.exists_build
    exact ⟨m, hm, fun side n t ht => Source.isValid_of_propertyType hschema h hm ht⟩

/-- One parameter is bounded by a list of its own, one by an array of that, and one by itself. -/
def bounding : List Schema.Operation := [
  .reopen Schema.storeClass {} "Store",
  .declare Schema.storeClass (.typeParameter
    { name := "K", bound := .applied (.of (.builtIn .list)) [.var "K"] }),
  .declare Schema.storeClass (.typeParameter { name := "V", bound := .array (.var "K") }),
  .declare Schema.storeClass (.typeParameter { name := "E", bound := .var "E" }),
  .declare Schema.storeClass (.method
    { name := "setKey", params := [.object], declaredParams := [.var "V"], body := .nothing }),
  .declare Schema.storeClass (.field
    { name := "items", type := .object, storage := .slot "items", declaredType := some (.array (.var "E")) })]

/-- Both bounds and the parameter that is its own bound erase, and so does a variable that is not declared. -/
theorem erased_types_valid_bounding :
    let s := Schema.run bounding
    let d := s.describe Schema.storeClass
    s.RawsValid ∧ d.BoundsAcyclic ∧ d.Erases (.var "V") (RuntimeType.of (.builtIn .list)).array ∧
      d.Erases (.array (.var "E")) RuntimeType.object.array ∧ d.Erases (.var "X") .object ∧
      (s.resolveErased (.applied (.of (.builtIn .list)) [.var "V"]) Schema.storeClass .object).isValid ∧
      ∃ m t u, build s Schema.storeClass {} = .ok m ∧
        m.propertyType s .setter "key" = .ok t ∧ m.propertyType s .getter "items" = .ok u ∧
        t.isValid ∧ u.isValid := by
  intro s d
  obtain ⟨hends, hvalid, hbuilt⟩ := erased_types_valid
  have hraws : s.RawsValid :=
    Schema.describe_of_listed (P := fun d => ∀ e ∈ d.expressions, e.rawsValid) (fun _ _ _ he => nomatch he)
      (by decide +kernel)
  have hbounds : d.BoundsAcyclic :=
    Description.boundsAcyclic_of_rank (fun name => if name = "V" then 1 else 0) (by decide +kernel)
  obtain ⟨m, hm, hproperties⟩ :=
    hbuilt s ⟨bounding, by simp [bounding, Schema.Operation.isAmendment], rfl⟩ hraws Schema.storeClass {}
  obtain ⟨other, t, u, hother, ht, hu⟩ : ∃ other t u, build s Schema.storeClass {} = .ok other ∧
      other.propertyType s .setter "key" = .ok t ∧ other.propertyType s .getter "items" = .ok u :=
    ⟨_, _, _, rfl, rfl, rfl⟩
  obtain rfl := Except.ok.inj (hm.symm.trans hother)
  refine ⟨hraws, hbounds, (hends d hbounds _).1, (hends d hbounds _).1, (hends d hbounds _).1, ?_, ?_⟩
  · exact (hvalid s hraws _ rfl).2 Schema.storeClass .object
  · exact ⟨m, t, u, hm, ht, hu, hproperties .setter "key" t ht, hproperties .getter "items" u hu⟩

/-- What an invalid type is applied to has no valid type. -/
example :
    let s := Schema.run [
      .reopen Schema.storeClass {} "Store",
      .declare Schema.storeClass (.method
        { name := "getKey", result := some .object, declaredReturns := some (.applied .invalid [.var "K"]),
          body := .nothing })]
    (s.describe Schema.storeClass).methods.map (s.returnsAt · Schema.storeClass) = [.invalid] := by
  decide +kernel

end Model
end Introspect
