import Introspect.Proofs.Sifting
import Introspect.Proofs.Runs
import Introspect.Proofs.Substitution

/-! The types of the members that a type shows. Members are met in another order than routes are searched,
so that a method of an interface may be shown through one route and typed through another. -/
namespace Introspect

theorem HostType.isEmpty_expr (t : HostType) : t.expr.isEmpty = false := by
  cases t with
  | sequence shape _ => cases shape <;> rfl
  | _ => rfl

theorem TypeExpr.eq_plain_of_isEmpty {e : TypeExpr} (h : e.isEmpty) :
    ∃ t, e = plain t ∧ ¬ t.isValid := by
  cases e with
  | plain t => exact ⟨t, rfl, by simpa [isEmpty] using h⟩
  | var | applied | array => exact absurd h Bool.false_ne_true

theorem Description.erase_of_isEmpty (d : Description) {e : TypeExpr} (h : e.isEmpty) :
    d.erase e = .object := by
  obtain ⟨t, rfl, ht⟩ := TypeExpr.eq_plain_of_isEmpty h
  exact if_neg ht

/-- Names the type that lists it, and its declared types stand for the erased ones. -/
structure Method.DeclaredBy (id : TypeId) (m : Method) : Prop where
  declaring : m.declaring = some id
  params : m.declaredParams.length = m.params.length
  returns : m.declaredReturns.isEmpty → m.returns = .object

structure Field.DeclaredBy (id : TypeId) (f : Field) : Prop where
  declaring : f.declaring = some id
  type : f.declaredType.isEmpty → f.type = .object

theorem MethodDeclaration.method_declaredBy (m : MethodDeclaration) (id : TypeId) (scope : Description) :
    (m.method id scope).DeclaredBy id where
  declaring := rfl
  params := by
    unfold method
    dsimp only
    split_ifs <;> simp
  returns h := by
    cases hreturns : m.declaredReturns with
    | some e =>
      simp only [method, hreturns, Option.getD_some, Option.elim_some] at h ⊢
      exact scope.erase_of_isEmpty h
    | none =>
      have hexpr : (HostType.exprResult m.result).isEmpty = false := by
        cases m.result with
        | none => rfl
        | some t => exact t.isEmpty_expr
      simp [method, hreturns, hexpr] at h

theorem FieldDeclaration.field_declaredBy (f : FieldDeclaration) (id : TypeId) (scope : Description) :
    (f.field id scope).DeclaredBy id where
  declaring := rfl
  type h := by
    cases htype : f.declaredType with
    | some e =>
      simp only [field, htype, Option.getD_some, Option.elim_some] at h ⊢
      exact scope.erase_of_isEmpty h
    | none => simp [field, htype, f.type.isEmpty_expr] at h

namespace Schema

variable {s : Schema} {subject owner : TypeId} {route first : List Link} {e : TypeExpr}

theorem Built.method_declaredBy (h : s.Built) {f : Found Method} (hf : f ∈ s.shownMethods subject) :
    f.member.DeclaredBy f.owner :=
  (Growing.of_methods fun m id scope _ => m.method_declaredBy id scope).built h f.owner f.member
    (shownMethods_listed subject f hf).2

theorem Built.field_declaredBy (h : s.Built) {f : Found Field} (hf : f ∈ s.shownFields subject) :
    f.member.DeclaredBy f.owner :=
  (Growing.of_fields FieldDeclaration.field_declaredBy).built h f.owner f.member (member_mem_fields hf)

/-- A declared type, carried along a route to the subject and erased there. -/
def typeAlong (s : Schema) (subject : TypeId) (route : List Link) (e : TypeExpr) : RuntimeType :=
  (s.describe subject).erase (s.substituteAlong route e)

theorem typeAlong_of_isEmpty (h : e.isEmpty) : s.typeAlong subject route e = .object := by
  unfold typeAlong
  obtain ⟨t, rfl, _⟩ := TypeExpr.eq_plain_of_isEmpty h
  rw [substituteAlong_eq_bind]
  exact Description.erase_of_isEmpty _ h

/-- Along the first route to the owner, the type comes out as it does along this one. -/
def TypedAsFirst (s : Schema) (subject owner : TypeId) (route : List Link) (e : TypeExpr) : Prop :=
  ∀ first, s.First subject first owner → s.typeAlong subject first e = s.typeAlong subject route e

theorem First.typedAsFirst_iff (h : s.First subject first owner) :
    s.TypedAsFirst subject owner route e ↔
      s.typeAlong subject first e = s.typeAlong subject route e := by
  constructor
  · intro hagree
    exact hagree first h
  · intro heq other hother
    rwa [hother.unique h]

namespace Acyclic

theorem resolveErased_eq (h : s.Acyclic) (hfirst : s.First subject first owner) :
    s.resolveErased e owner subject = s.typeAlong subject first e := by
  unfold resolveErased typeAlong
  rw [resolve_eq_of_route? (h.route?_eq_some_iff.2 hfirst)]

theorem returnsAt_eq (h : s.Acyclic) (hfirst : s.First subject first owner) {m : Method}
    (hm : m.DeclaredBy owner) :
    s.returnsAt m subject = s.typeAlong subject first m.declaredReturns := by
  simp only [returnsAt, hm.declaring]
  split_ifs with hempty
  · rw [hm.returns hempty, typeAlong_of_isEmpty hempty]
  · exact h.resolveErased_eq hfirst

theorem paramsAt_eq (h : s.Acyclic) (hfirst : s.First subject first owner) {m : Method}
    (hm : m.DeclaredBy owner) :
    s.paramsAt m subject = m.declaredParams.map (s.typeAlong subject first) := by
  simp only [paramsAt, hm.declaring, if_pos hm.params]
  exact List.map_congr_left fun _ _ => h.resolveErased_eq hfirst

theorem fieldTypeAt_eq (h : s.Acyclic) (hfirst : s.First subject first owner) {f : Field}
    (hf : f.DeclaredBy owner) :
    s.fieldTypeAt f subject = s.typeAlong subject first f.declaredType := by
  simp only [fieldTypeAt, hf.declaring]
  split_ifs with hempty
  · rw [hf.type hempty, typeAlong_of_isEmpty hempty]
  · exact h.resolveErased_eq hfirst

end Acyclic

/-- A field has the type that comes out along the superclass links it is shown through, and so has a
method shown through superclass links. Of other methods a type comes out along the links exactly where the
first route to the owner gives the same. -/
theorem shown_types_along_route (hbuilt : s.Built) (hacyclic : s.Acyclic) (subject : TypeId) :
    (∀ f ∈ s.shownFields subject,
      s.Route subject f.route f.owner ∧ f.member.declaring = some f.owner ∧
        s.fieldTypeAt f.member subject = s.typeAlong subject f.route f.member.declaredType) ∧
    ∀ f ∈ s.shownMethods subject,
      s.Route subject f.route f.owner ∧ f.member.declaring = some f.owner ∧
        (s.returnsAt f.member subject = s.typeAlong subject f.route f.member.declaredReturns ↔
          s.TypedAsFirst subject f.owner f.route f.member.declaredReturns) ∧
        (s.paramsAt f.member subject = f.member.declaredParams.map (s.typeAlong subject f.route) ↔
          ∀ e ∈ f.member.declaredParams, s.TypedAsFirst subject f.owner f.route e) ∧
        (s.Outward subject f.route f.owner → ∀ e, s.TypedAsFirst subject f.owner f.route e) := by
  constructor
  · intro f hf
    obtain ⟨houtward, hlisted⟩ := (hacyclic.mem_shownFields_iff subject f).1 hf
    have hdeclared := (Growing.of_fields FieldDeclaration.field_declaredBy).built hbuilt f.owner f.member
      hlisted
    exact ⟨.of_outward houtward, hdeclared.declaring,
      hacyclic.fieldTypeAt_eq (hacyclic.first_of_outward houtward) hdeclared⟩
  · intro f hf
    obtain ⟨happroach, hlisted⟩ := shownMethods_listed subject f hf
    have hdeclared := (Growing.of_methods fun m id scope _ => m.method_declaredBy id scope).built hbuilt
      f.owner f.member hlisted
    have hroute := happroach.toRoute
    obtain ⟨first, hfound⟩ := hacyclic.exists_route? hroute
    have hfirst := hacyclic.route?_eq_some_iff.1 hfound
    refine ⟨hroute, hdeclared.declaring, ?_, ?_, ?_⟩
    · rw [hacyclic.returnsAt_eq hfirst hdeclared, hfirst.typedAsFirst_iff]
    · rw [hacyclic.paramsAt_eq hfirst hdeclared, List.map_inj_left]
      exact forall₂_congr fun _ _ => hfirst.typedAsFirst_iff.symm
    · intro houtward e
      exact (hacyclic.first_of_outward houtward).typedAsFirst_iff.2 rfl

/-- A class and its superclass both fill the parameter of one interface. -/
def twofold (inherited : List TypeExpr) : List Operation := [
  .reopen storeClass {} "Store",
  .declare storeClass .asInterface,
  .declare storeClass (.typeParameter { name := "K" }),
  .declare storeClass (.method
    { name := "getKey", result := some .object, declaredReturns := some (.var "K"), body := .nothing }),
  .declare storeClass (.method
    { name := "put", params := [.sequence .array .object], declaredParams := [.array (.var "K")],
      body := .nothing }),
  .reopen baseClass {} "Base",
  .declare baseClass (.interface { base := some storeClass, args := inherited }),
  .reopen derivedClass {} "Derived",
  .declare derivedClass (.superclass { base := some baseClass }),
  .declare derivedClass (.interface
    { base := some storeClass, args := [.plain (.of (.builtIn .string))] })]

theorem built_twofold (inherited : List TypeExpr) : (run (twofold inherited)).Built :=
  ⟨twofold inherited, by simp [twofold, Operation.isAmendment], rfl⟩

/-- Both fill it with strings, so that it does not matter which route is followed. -/
theorem shown_types_along_route_twofold :
    let s := run (twofold [.plain (.of (.builtIn .string))])
    s.Built ∧ s.Acyclic ∧ ∃ f ∈ s.shownMethods derivedClass, ∃ first,
      s.First derivedClass first f.owner ∧ f.route.length = 1 ∧ first.length = 2 ∧
        s.paramsAt f.member derivedClass =
          f.member.declaredParams.map (s.typeAlong derivedClass f.route) ∧
        f.member.declaredParams.map (s.typeAlong derivedClass f.route) =
          [(RuntimeType.of (.builtIn .string)).array] := by
  intro s
  have hbuilt : s.Built := built_twofold _
  have hacyclic : s.Acyclic := acyclic_of_rank classRank (by decide)
  obtain ⟨f, first, hf, hfirst, hroute, hlonger, hsame, htypes⟩ :
      ∃ f first, (s.shownMethods derivedClass)[1]? = some f ∧
        s.route? derivedClass f.owner = some first ∧ f.route.length = 1 ∧ first.length = 2 ∧
        (∀ e ∈ f.member.declaredParams,
          s.typeAlong derivedClass first e = s.typeAlong derivedClass f.route e) ∧
        f.member.declaredParams.map (s.typeAlong derivedClass f.route) =
          [(RuntimeType.of (.builtIn .string)).array] :=
    ⟨_, _, rfl, rfl, rfl, rfl, by decide, by decide⟩
  have hshown := List.mem_of_getElem? hf
  have hfound := hacyclic.route?_eq_some_iff.1 hfirst
  obtain ⟨_, _, _, hparams, _⟩ := (shown_types_along_route hbuilt hacyclic derivedClass).2 f hshown
  have halong := hparams.2 fun e he => hfound.typedAsFirst_iff.2 (hsame e he)
  exact ⟨hbuilt, hacyclic, f, hshown, first, hfound, hroute, hlonger, halong, htypes⟩

/-- The superclass leaves it unfilled, and a method shown through the link of the subject has the type it
has through the superclass. -/
theorem shown_types_differ :
    let s := run (twofold [])
    s.Built ∧ s.Acyclic ∧ ∃ f ∈ s.shownMethods derivedClass,
      s.typeAlong derivedClass f.route f.member.declaredReturns = .of (.builtIn .string) ∧
        s.returnsAt f.member derivedClass = .object := by
  intro s
  have hacyclic : s.Acyclic := acyclic_of_rank classRank (by decide)
  obtain ⟨f, hf, halong, hreturns⟩ : ∃ f, (s.shownMethods derivedClass)[0]? = some f ∧
      s.typeAlong derivedClass f.route f.member.declaredReturns = .of (.builtIn .string) ∧
      s.returnsAt f.member derivedClass = .object := ⟨_, rfl, by decide, by decide⟩
  exact ⟨built_twofold _, hacyclic, f, List.mem_of_getElem? hf, halong, hreturns⟩

end Schema
end Introspect
