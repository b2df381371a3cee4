import Introspect.Proofs.Confinement
import Introspect.Proofs.Extension
import Introspect.Proofs.Inheritance
import Introspect.Proofs.ThroughLink
import Introspect.Proofs.Upcasts

/-! The model of a class that declares nothing but a raw link to its superclass. It is the model of the
superclass, with one upcast more before each member. -/
namespace Introspect

/-- The root derives from nothing, so no builder makes it extend a class. -/
theorem Schema.Bare.ne_object {s : Schema} {id base : TypeId} {l : Link} (h : s.Bare id l base)
    (hmade : s.BuilderMade) : id ≠ .object := by
  rintro rfl
  have hsuper : base ∈ s.supertypes .object := supertype_of_superclass h.superclass h.target
  rw [TypeId.object, hmade.supertypes_builtIn] at hsuper
  exact nomatch hsuper

/-- The failure as a model of another type reports it. -/
def Failure.ofModel (model : String) : Failure → Failure
  | ambiguous ambiguity => ambiguous { ambiguity with model }
  | failure => failure

namespace Accessor

def isStatic : Accessor → Bool
  | method m => m.isStatic
  | field f => f.isStatic
  | ambiguous _ _ => false

/-- An accessor of a superclass, as a subclass with a link to it has it. -/
def inherit (l : Link) (model : String) : Accessor → Accessor
  | method m => method { m with upcasts := l.upcast :: m.upcasts }
  | field f => field { f with upcasts := l.upcast :: f.upcasts }
  | ambiguous ambiguity type => ambiguous { ambiguity with model } type

variable (l : Link) (model : String) (a : Accessor)

@[simp] theorem type_inherit : (a.inherit l model).type = a.type := by
  cases a <;> rfl

@[simp] theorem isAmbiguous_inherit : (a.inherit l model).isAmbiguous = a.isAmbiguous := by
  cases a <;> rfl

variable (self : Option ObjectRef) (args : List Value)

theorem refusal?_inherit :
    (a.inherit l model).refusal? self args = (a.refusal? self args).map (.ofModel model) := by
  cases a with
  | ambiguous ambiguity type => rfl
  | method m =>
    change (m.refusal? m.arity self args).map _ = _
    rw [refusal?, Option.map_map]
    rfl
  | field f =>
    change (f.refusal? f.arity self args).map _ = _
    rw [refusal?, Option.map_map]
    rfl

/-- A use that is not refused makes one upcast more and then does the same. -/
theorem exec_invoke_inherit (call : PropertyCall) (memory : Memory) (h : a.refusal? self args = none) :
    ((a.inherit l model).invoke call self args).exec memory =
      (a.invoke call self args).exec (if a.isStatic then memory else memory.upcast [l.upcast]) := by
  have hinherit := refusal?_inherit l model a self args
  rw [h, Option.map_none] at hinherit
  -- The upcast of the link comes before those that were there, so it may as well be made beforehand.
  have hreached (access : MemberAccess) :
      { access with upcasts := l.upcast :: access.upcasts }.reached memory =
        access.reached (if access.isStatic then memory else memory.upcast [l.upcast]) := by
    unfold MemberAccess.reached Memory.upcast
    split_ifs
    · rfl
    · cases l.upcast <;> simp
  cases a with
  | ambiguous ambiguity type => cases h
  | method m =>
    rw [exec_invoke_method _ _ _ _ m (Option.map_eq_none_iff.1 h), isStatic, ← hreached]
    exact exec_invoke_method _ _ _ _ _ (Option.map_eq_none_iff.1 hinherit)
  | field f =>
    rw [exec_invoke_field f _ _ _ _ (Option.map_eq_none_iff.1 h), isStatic, ← hreached]
    exact exec_invoke_field _ _ _ _ _ (Option.map_eq_none_iff.1 hinherit)

/-- An accessor of a class and that of its superclass. If the one is refused, so is the other; an
ambiguous one names the type that is modelled. Any other use makes the upcast of the link, unless the
member is static, and then does the same. -/
structure Extends (a inherited : Accessor) (l : Link) (model : String) : Prop where
  eq_inherit : a = inherited.inherit l model
  refused : ∀ call self args memory failure, inherited.refusal? self args = some failure →
    (inherited.invoke call self args).exec memory = (.error failure, memory) ∧
      (a.invoke call self args).exec memory = (.error (failure.ofModel model), memory)
  used : ∀ call self args memory, inherited.refusal? self args = none →
    (a.invoke call self args).exec memory =
      (inherited.invoke call self args).exec
        (if inherited.isStatic then memory else memory.upcast [l.upcast])

theorem extends_inherit : (a.inherit l model).Extends a l model where
  eq_inherit := rfl
  refused call self args memory failure h := by
    have hinherit := refusal?_inherit l model a self args
    rw [h, Option.map_some] at hinherit
    exact ⟨exec_invoke_of_refusal? call self args memory h,
      exec_invoke_of_refusal? call self args memory hinherit⟩
  used call self args memory h := exec_invoke_inherit l model a self args call memory h

end Accessor

namespace Model.Source

variable {s : Source} {l : Link} {base : TypeId}

/-- The source of the model of the superclass. -/
def ofSuperclass (s : Source) (base : TypeId) : Source := { s with subject := base }

/-- An accessor of the superclass, as the class has it. -/
def inherit (s : Source) (l : Link) : Accessor → Accessor := .inherit l (s.schema.nameOf s.subject)

/-- The class shows what the superclass shows, and sees it with the same types. As no member is detached,
the names of declaring types are the same too. -/
structure Sees (s : Source) (l : Link) (base : TypeId) : Prop where
  methods : s.schema.shownMethods s.subject = (s.schema.shownMethods base).map (.through l)
  fields : s.schema.shownFields s.subject = (s.schema.shownFields base).map (.through l)
  returns : ∀ c ∈ s.schema.shownMethods base,
    s.schema.returnsAt c.member s.subject = s.schema.returnsAt c.member base
  params : ∀ c ∈ s.schema.shownMethods base,
    s.schema.paramsAt c.member s.subject = s.schema.paramsAt c.member base
  fieldType : ∀ f ∈ s.schema.shownFields base,
    s.schema.fieldTypeAt f.member s.subject = s.schema.fieldTypeAt f.member base
  methodDeclared : ∀ c ∈ s.schema.shownMethods base, c.member.declaring.isSome
  fieldDeclared : ∀ f ∈ s.schema.shownFields base, f.member.declaring.isSome

theorem sees_of_bare (h : s.schema.Bare s.subject l base) (hbuilt : s.schema.Built)
    (hacyclic : s.schema.Acyclic) (hsubject : s.subject ≠ .object)
    (hbounds : ∀ p ∈ (s.schema.describe base).typeParameters, p.bound.rawsValid) :
    s.Sees l base := by
  have hmethod {c : Candidate} (hc : c ∈ s.schema.shownMethods base) :
      s.schema.Route base c.route c.owner ∧ c.member.declaring = some c.owner :=
    ⟨(Schema.shownMethods_listed base c hc).1.toRoute, (hbuilt.method_declaredBy hc).declaring⟩
  have hfield {f : Found Field} (hf : f ∈ s.schema.shownFields base) :
      s.schema.Route base f.route f.owner ∧ f.member.declaring = some f.owner :=
    ⟨.of_outward ((hacyclic.mem_shownFields_iff base f).1 hf).1,
      (hbuilt.field_declaredBy hf).declaring⟩
  constructor
  · exact h.shownMethods_eq hacyclic hsubject
  · exact h.shownFields_eq hacyclic
  · exact fun c hc => h.returnsAt_eq hacyclic hbounds (hmethod hc).1 (hmethod hc).2
  · exact fun c hc => h.paramsAt_eq hacyclic hbounds (hmethod hc).1 (hmethod hc).2
  · exact fun f hf => h.fieldTypeAt_eq hacyclic hbounds (hfield hf).1 (hfield hf).2
  · exact fun c hc => Option.isSome_of_eq_some (hmethod hc).2
  · exact fun f hf => Option.isSome_of_eq_some (hfield hf).2

theorem declaringName_ofSuperclass (s : Source) (base : TypeId) {declaring : Option TypeId}
    (h : declaring.isSome) :
    s.declaringName declaring = (s.ofSuperclass base).declaringName declaring := by
  obtain ⟨id, rfl⟩ := Option.isSome_iff_exists.1 h
  rfl

namespace Sees

variable (h : s.Sees l base)
include h

theorem getterType_through {c : Candidate} (hc : c ∈ s.schema.shownMethods base) :
    s.getterType (c.through l) = (s.ofSuperclass base).getterType c := h.returns c hc

theorem setterType_through {c : Candidate} (hc : c ∈ s.schema.shownMethods base) :
    s.setterType (c.through l) = (s.ofSuperclass base).setterType c :=
  congrArg (·.headD .invalid) (h.params c hc)

theorem methodAccessor_through {c : Candidate} (hc : c ∈ s.schema.shownMethods base)
    (type : RuntimeType) :
    s.methodAccessor (c.through l) type =
      s.inherit l ((s.ofSuperclass base).methodAccessor c type) := by
  have hname := declaringName_ofSuperclass s base (h.methodDeclared c hc)
  unfold methodAccessor inherit Accessor.inherit
  rw [← hname]
  rfl

theorem fieldAccessor_through {f : Found Field} (hf : f ∈ s.schema.shownFields base)
    (use : FieldUse) :
    s.fieldAccessor (f.through l) use = s.inherit l ((s.ofSuperclass base).fieldAccessor f use) := by
  have hname := declaringName_ofSuperclass s base (h.fieldDeclared f hf)
  have htype : (s.ofSuperclass base).schema.fieldTypeAt f.member (s.ofSuperclass base).subject =
      s.schema.fieldTypeAt f.member s.subject := (h.fieldType f hf).symm
  unfold fieldAccessor inherit Accessor.inherit
  rw [← hname, htype]
  rfl

theorem getterAccessor_through (property : String) {selection : Selection}
    (hs : ∀ c ∈ selection.members, c ∈ s.schema.shownMethods base) :
    s.getterAccessor property (selection.through l) =
      s.inherit l ((s.ofSuperclass base).getterAccessor property selection) := by
  cases selection with
  | chosen winner =>
    have hwinner := hs winner (by simp [Selection.members])
    change s.methodAccessor (winner.through l) (s.getterType (winner.through l)) = _
    rw [h.methodAccessor_through hwinner, h.getterType_through hwinner]
    rfl
  | conflict first second =>
    have hfirst := hs first (by simp [Selection.members])
    have hname := declaringName_ofSuperclass s base (h.methodDeclared first hfirst)
    simp only [getterAccessor, Selection.through, Found.member_through, hname,
      h.getterType_through hfirst]
    rfl

theorem setterAccessor_through (property : String) {selection : Selection}
    (hs : ∀ c ∈ selection.members, c ∈ s.schema.shownMethods base) :
    s.setterAccessor property (selection.through l) =
      s.inherit l ((s.ofSuperclass base).setterAccessor property selection) := by
  cases selection with
  | chosen winner =>
    have hwinner := hs winner (by simp [Selection.members])
    change s.methodAccessor (winner.through l) (s.setterType (winner.through l)) = _
    rw [h.methodAccessor_through hwinner, h.setterType_through hwinner]
    rfl
  | conflict first second =>
    have hfirst := hs first (by simp [Selection.members])
    have hsecond := hs second (by simp [Selection.members])
    have hname := declaringName_ofSuperclass s base (h.methodDeclared second hsecond)
    simp only [setterAccessor, Selection.through, Found.member_through, hname,
      h.setterType_through hfirst]
    rfl

theorem getterOf_through (property : String) {g : CandidateGroup}
    (hg : ∀ c ∈ g.toList, c ∈ s.schema.shownMethods base) :
    s.getterOf property (g.through l) =
      s.inherit l ((s.ofSuperclass base).getterOf property g) := by
  have hselection : Selection.getter s.schema (g.through l).first (g.through l).rest =
      (Selection.getter s.schema g.first g.rest).through l := Selection.getter_through s.schema l _ _
  unfold getterOf
  rw [hselection]
  refine h.getterAccessor_through property fun c hc => hg c ?_
  simpa [CandidateGroup.toList] using Selection.getter_members _ _ _ c hc

theorem setterOf_through (getters : PropertyTable) (property : String) {g : CandidateGroup}
    (hg : ∀ c ∈ g.toList, c ∈ s.schema.shownMethods base) :
    s.setterOf (getters.map (s.inherit l)) property (g.through l) =
      s.inherit l ((s.ofSuperclass base).setterOf getters property g) := by
  have hgiven : given? (getters.map (s.inherit l)) property = given? getters property := by
    unfold given? PropertyTable.map
    simp only [Table.get?_map, Option.any_map, inherit, Accessor.isAmbiguous_inherit]
  unfold setterOf
  rw [hgiven, Selection.setter_through]
  exact h.setterAccessor_through property fun c hc => hg c (Selection.setter_members _ _ _ c hc)

omit h in
/-- What is recorded for the candidates of the superclass corresponds. -/
theorem recordAll_through {isCandidate : Candidate → Bool} {groups : Table String CandidateGroup}
    (hgroups : CandidateGroup.Groups ((s.schema.shownMethods base).filter isCandidate) groups)
    {accessor accessor' : String → CandidateGroup → Accessor}
    (haccessor : ∀ property (g : CandidateGroup), (∀ c ∈ g.toList, c ∈ s.schema.shownMethods base) →
      accessor property (g.through l) = s.inherit l (accessor' property g)) :
    PropertyTable.recordAll accessor (groups.map (.through l)) =
      (PropertyTable.recordAll accessor' groups).map (s.inherit l) := by
  refine PropertyTable.recordAll_map _ (Accessor.type_inherit l _) fun e he => ?_
  refine haccessor e.1 e.2 fun c hc => ?_
  rw [hgroups.toList_eq (Table.get?_of_mem_entries hgroups.nodup he)] at hc
  exact (List.mem_filter.1 (List.mem_filter.1 hc).1).1

theorem byProperty_through {isCandidate : Candidate → Bool}
    (hcandidate : ∀ c : Candidate, isCandidate (c.through l) = isCandidate c)
    {groups : Table String CandidateGroup}
    (hok : CandidateGroup.byProperty ((s.schema.shownMethods base).filter isCandidate) = .ok groups) :
    CandidateGroup.byProperty ((s.schema.shownMethods s.subject).filter isCandidate) =
      .ok (groups.map (.through l)) := by
  have hfilter : isCandidate ∘ Found.through l = isCandidate := funext hcandidate
  rw [h.methods, List.filter_map, hfilter, CandidateGroup.byProperty_through, hok]
  rfl

theorem exists_getters : ∃ t, (s.ofSuperclass base).getters (s.schema.shownMethods base) = .ok t ∧
    s.getters (s.schema.shownMethods s.subject) = .ok (t.map (s.inherit l)) := by
  obtain ⟨groups, hok, hgroups⟩ :=
    (s.ofSuperclass base).exists_getter_groups (s.schema.shownMethods base)
  refine ⟨_, getters_of_byProperty _ hok, ?_⟩
  rw [s.getters_of_byProperty (h.byProperty_through (fun _ => rfl) hok),
    recordAll_through hgroups fun property _ => h.getterOf_through property]

theorem exists_setters (getters : PropertyTable) :
    ∃ t, (s.ofSuperclass base).setters (s.schema.shownMethods base) getters = .ok t ∧
      s.setters (s.schema.shownMethods s.subject) (getters.map (s.inherit l)) =
        .ok (t.map (s.inherit l)) := by
  obtain ⟨groups, hok, hgroups⟩ := exists_setter_groups (s.schema.shownMethods base)
  refine ⟨_, setters_of_byProperty _ hok getters, ?_⟩
  rw [s.setters_of_byProperty (h.byProperty_through (fun _ => rfl) hok),
    recordAll_through hgroups fun property _ => h.setterOf_through getters property]

theorem fill_through (use : Field → Option FieldUse) (t : PropertyTable) {f : Found Field}
    (hf : f ∈ s.schema.shownFields base) :
    s.fill use (t.map (s.inherit l)) (f.through l) =
      ((s.ofSuperclass base).fill use t f).map (s.inherit l) := by
  unfold fill recordField
  rw [Found.member_through, PropertyTable.contains_map]
  cases use f.member with
  | none => rfl
  | some u =>
    dsimp only
    split_ifs
    · rfl
    · rw [h.fieldAccessor_through hf, PropertyTable.record_map, h.fieldType f hf]
      rfl
    · rfl

theorem foldl_fill_through (use : Field → Option FieldUse) (t : PropertyTable) :
    (s.schema.shownFields s.subject).foldl (s.fill use) (t.map (s.inherit l)) =
      ((s.schema.shownFields base).foldl ((s.ofSuperclass base).fill use) t).map (s.inherit l) := by
  have hfold (fields : List (Found Field)) (hfields : ∀ f ∈ fields, f ∈ s.schema.shownFields base)
      (t : PropertyTable) :
      (fields.map (.through l)).foldl (s.fill use) (t.map (s.inherit l)) =
        (fields.foldl ((s.ofSuperclass base).fill use) t).map (s.inherit l) := by
    induction fields generalizing t with
    | nil => rfl
    | cons f rest ih =>
      rw [List.map_cons, List.foldl_cons, List.foldl_cons,
        h.fill_through use t (hfields f List.mem_cons_self)]
      exact ih (fun f hf => hfields f (List.mem_cons_of_mem _ hf)) _
  rw [h.fields]
  exact hfold _ (fun _ hf => hf) t

/-- The model of the class is the model of the superclass, with each accessor as the class has it. -/
theorem exists_build : ∃ m inherited, build s.schema s.subject s.options = .ok m ∧
    build s.schema base s.options = .ok inherited ∧
    ∀ side, m.side side = (inherited.side side).map (s.inherit l) := by
  obtain ⟨readable, hr', hr⟩ := h.exists_getters
  obtain ⟨writable, hw', hw⟩ := h.exists_setters readable
  refine ⟨_, _, s.build_eq hr hw, (s.ofSuperclass base).build_eq hr' hw', ?_⟩
  intro side
  cases side with
  | getter => exact h.foldl_fill_through reading readable
  | setter => exact h.foldl_fill_through writing writable

end Sees

end Model.Source

namespace Model

/-- A class with a variable in its members and with two getters in conflict, and a class that only
extends it. -/
def extending : List Schema.Operation := [
  .reopen Schema.baseClass {} "Base",
  .declare Schema.baseClass (.typeParameter { name := "T", bound := .plain (.of (.builtIn .string)) }),
  .declare Schema.baseClass (.method
    { name := "getItem", result := some .object, declaredReturns := some (.var "T"), body := .nothing }),
  .declare Schema.baseClass (.method { name := "getSize", result := some .int, body := .nothing }),
  .declare Schema.baseClass (.method { name := "getsize", result := some .int, body := .nothing }),
  .declare Schema.baseClass (.method { name := "setItem", params := [.string], body := .nothing }),
  .declare Schema.baseClass (.field
    { name := "x", type := .object, storage := .slot "x", declaredType := some (.array (.var "T")) }),
  .reopen Schema.derivedClass {} "Derived",
  .declare Schema.derivedClass (.superclass
    { base := some Schema.baseClass, upcast := some "Derived>Base" })]

end Model
end Introspect
