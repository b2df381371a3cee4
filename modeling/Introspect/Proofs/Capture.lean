import Introspect.Proofs.MemberTypes
import Introspect.Proofs.Scoping

/-! Variables that the declaring type does not declare. Links let them pass, down to a type with a parameter
of that name, and from there on they are taken for that parameter. -/
namespace Introspect.Schema

variable {s : Schema} {subject owner captor id next : TypeId} {l : Link} {x : String}
  {lower upper route : List Link}

/-- Of the types that a route comes through before its end, the last that has a parameter of the name. -/
def captor? (s : Schema) (x : String) : TypeId → List Link → Option TypeId
  | _, [] => none
  | id, l :: route =>
    (l.target.bind fun next => s.captor? x next route).or
      (if ((s.describe id).typeParameter? x).isSome then some id else none)

theorem captor?_cons (ht : l.target = some next) : s.captor? x id (l :: route) =
    (s.captor? x next route).or
      (if ((s.describe id).typeParameter? x).isSome then some id else none) := by
  rw [captor?, ht, Option.bind_some]

theorem substituteAlong_cons_of_undeclared (ht : l.target = some next)
    (hundeclared : (s.describe next).typeParameter? x = none)
    (hstays : s.substituteAlong route (.var x) = .var x) :
    s.substituteAlong (l :: route) (.var x) = .var x := by
  calc
    s.substitute l (s.substituteAlong route (.var x)) = s.substitute l (.var x) := by rw [hstays]
    _ = .var x := substitute_var_of_undeclared ht hundeclared

namespace Route

/-- Where no type on the way has a parameter of the name, the variable stays. -/
theorem substituteAlong_of_no_captor (hr : s.Route subject route owner)
    (hx : (s.describe owner).typeParameter? x = none) (h : s.captor? x subject route = none) :
    (s.describe subject).typeParameter? x = none ∧ s.substituteAlong route (.var x) = .var x := by
  induction hr with
  | here => exact ⟨hx, rfl⟩
  | @step id next top l route hl ht hr ih =>
    rw [captor?_cons ht, Option.or_eq_none_iff] at h
    obtain ⟨hundeclared, hstays⟩ := ih hx h.1
    exact ⟨by simpa using h.2, substituteAlong_cons_of_undeclared ht hundeclared hstays⟩

/-- Otherwise the route comes through the captor, and above it the variable stays. -/
theorem exists_captor (hr : s.Route subject route owner)
    (hx : (s.describe owner).typeParameter? x = none) (h : s.captor? x subject route = some captor) :
    ((s.describe captor).typeParameter? x).isSome ∧ ∃ lower upper, route = lower ++ upper ∧
      s.Route subject lower captor ∧ s.Route captor upper owner ∧
        s.substituteAlong upper (.var x) = .var x := by
  induction hr with
  | here => exact absurd h (by simp [captor?])
  | @step id next top l route hl ht hr ih =>
    rw [captor?_cons ht] at h
    cases hnext : s.captor? x next route with
    | some other =>
      rw [hnext, Option.some_or, Option.some.injEq] at h
      subst h
      obtain ⟨hcaptor, lower, upper, rfl, hlower, hupper, hstays⟩ := ih hx hnext
      exact ⟨hcaptor, l :: lower, upper, rfl, .step hl ht hlower, hupper, hstays⟩
    | none =>
      -- Nothing above takes the variable, so it comes to this type as it was declared.
      rw [hnext, Option.none_or] at h
      split_ifs at h with hdeclared
      cases h
      obtain ⟨hundeclared, hstays⟩ := hr.substituteAlong_of_no_captor hx hnext
      refine ⟨hdeclared, [], l :: route, rfl, .here _, .step hl ht hr, ?_⟩
      exact substituteAlong_cons_of_undeclared ht hundeclared hstays

end Route

/-- What two routes have in common at their ends does not decide which of them comes first. -/
theorem Acyclic.precedes_of_append (h : s.Acyclic) {other : List Link}
    (hlower : s.Route subject lower captor) (hother : s.Route subject other captor)
    (hp : s.Precedes subject (lower ++ upper) (other ++ upper)) : s.Precedes subject lower other := by
  induction hlower generalizing other with
  | here id =>
    rw [h.route_self hother] at hp
    exact absurd hp hp.asymm
  | @step id next top l lower hl ht hlower ih =>
    cases hother with
    | here =>
      rw [h.route_self (.step hl ht hlower)] at hp
      exact absurd hp hp.asymm
    | step hl' ht' hother =>
      cases hp with
      | fork hlinks hlater hne => exact .fork hlinks hlater hne
      | follow ht'' hp =>
        rw [ht] at ht' ht''
        cases ht'
        cases ht''
        exact .follow ht (ih hother hp)

/-- The first route goes along the first routes to the types that it comes through. -/
theorem Acyclic.first_of_append (h : s.Acyclic) (hlower : s.Route subject lower captor)
    (hupper : s.Route captor upper owner) (hfirst : s.First subject (lower ++ upper) owner) :
    s.First subject lower captor := by
  refine ⟨hlower, fun other hother => ?_⟩
  rcases hfirst.2 (other ++ upper) (hother.append hupper) with hsame | hprecedes
  · exact Or.inl (List.append_cancel_right hsame)
  · exact Or.inr (h.precedes_of_append hlower hother hprecedes)

/-- The type that a subject sees of the members that are declared with the variable alone. -/
structure ShowsVariable (s : Schema) (subject owner : TypeId) (x : String) (t : RuntimeType) : Prop where
  returns : ∀ m : Method, m.DeclaredBy owner → m.declaredReturns = .var x → s.returnsAt m subject = t
  params : ∀ m : Method, m.DeclaredBy owner → ∀ i : Nat, m.declaredParams[i]? = some (.var x) →
    (s.paramsAt m subject)[i]? = some t
  type : ∀ f : Field, f.DeclaredBy owner → f.declaredType = .var x → s.fieldTypeAt f subject = t

theorem Acyclic.showsVariable (h : s.Acyclic) (hfirst : s.First subject route owner) :
    s.ShowsVariable subject owner x (s.typeAlong subject route (.var x)) where
  returns m hm hreturns := by rw [h.returnsAt_eq hfirst hm, hreturns]
  params m hm i hi := by rw [h.paramsAt_eq hfirst hm, List.getElem?_map, hi, Option.map_some]
  type f hf htype := by rw [h.fieldTypeAt_eq hfirst hf, htype]

/-- A variable that the declaring type does not declare is shown as the root only where no type on the
first route down to the subject has a parameter of that name. Otherwise it is shown as that parameter. -/
theorem undeclared_variable_shown (h : s.Acyclic) (hfirst : s.First subject route owner)
    (hx : (s.describe owner).typeParameter? x = none) :
    (s.captor? x subject route = none → s.ShowsVariable subject owner x .object) ∧
      ∀ captor, s.captor? x subject route = some captor →
        ((s.describe captor).typeParameter? x).isSome ∧
          s.ShowsVariable subject owner x (s.resolveErased (.var x) captor subject) := by
  have hshown := h.showsVariable (x := x) hfirst
  constructor
  · intro hnone
    obtain ⟨hundeclared, hstays⟩ := hfirst.1.substituteAlong_of_no_captor hx hnone
    rwa [typeAlong, hstays, Description.erase_var_of_undeclared hundeclared] at hshown
  · intro captor hcaptor
    obtain ⟨hdeclared, lower, upper, rfl, hlower, hupper, hstays⟩ := hfirst.1.exists_captor hx hcaptor
    refine ⟨hdeclared, ?_⟩
    have hsame : s.typeAlong subject (lower ++ upper) (.var x) = s.typeAlong subject lower (.var x) := by
      rw [typeAlong, substituteAlong_append, hstays, typeAlong]
    rw [h.resolveErased_eq (h.first_of_append hlower hupper hfirst)]
    rwa [hsame] at hshown

/-- The class at the top has methods with type variables of their own, and the class below it has a
parameter with the name of one of them. -/
def capturing : List Operation := [
  .reopen storeClass {} "Store",
  .declare storeClass (.method
    { name := "pick", result := some .object, params := [.object], declaredReturns := some (.var "T"),
      declaredParams := [.var "Q"], body := .nothing }),
  .reopen baseClass {} "Base",
  .declare baseClass (.typeParameter { name := "T" }),
  .declare baseClass (.superclass { base := some storeClass }),
  .reopen derivedClass {} "Derived",
  .declare derivedClass (.superclass
    { base := some baseClass, args := [.plain (.of (.builtIn .string))] })]

theorem undeclared_variable_shown_capturing :
    let s := run capturing
    s.Acyclic ∧ (s.describe storeClass).typeParameter? "T" = none ∧
      (s.describe storeClass).typeParameter? "Q" = none ∧
      ∃ route, s.First derivedClass route storeClass ∧
        s.captor? "T" derivedClass route = some baseClass ∧ s.captor? "Q" derivedClass route = none ∧
        ∃ f ∈ s.shownMethods derivedClass, f.member.DeclaredBy storeClass ∧
          s.returnsAt f.member derivedClass = .of (.builtIn .string) ∧
          (s.paramsAt f.member derivedClass)[0]? = some .object := by
  intro s
  have hacyclic : s.Acyclic := acyclic_of_rank classRank (by decide)
  have hbuilt : s.Built := ⟨capturing, by simp [capturing, Operation.isAmendment], rfl⟩
  obtain ⟨route, hroute, hcaptor, hnone⟩ : ∃ route, s.route? derivedClass storeClass = some route ∧
      s.captor? "T" derivedClass route = some baseClass ∧ s.captor? "Q" derivedClass route = none :=
    ⟨_, rfl, by decide, by decide⟩
  obtain ⟨f, hf, howner, hreturns, hparam⟩ : ∃ f, (s.shownMethods derivedClass)[0]? = some f ∧
      f.owner = storeClass ∧ f.member.declaredReturns = .var "T" ∧
        f.member.declaredParams[0]? = some (.var "Q") := ⟨_, rfl, rfl, rfl, rfl⟩
  have hfirst := hacyclic.route?_eq_some_iff.1 hroute
  have hshown := List.mem_of_getElem? hf
  have hmember : f.member.DeclaredBy storeClass := howner ▸ hbuilt.method_declaredBy hshown
  have hundeclared : (s.describe storeClass).typeParameter? "T" = none := by decide
  have hundeclared' : (s.describe storeClass).typeParameter? "Q" = none := by decide
  have hcaptured := ((undeclared_variable_shown hacyclic hfirst hundeclared).2 baseClass hcaptor).2
  have hroot := (undeclared_variable_shown hacyclic hfirst hundeclared').1 hnone
  refine ⟨hacyclic, hundeclared, hundeclared', route, hfirst, hcaptor, hnone, f, hshown, hmember, ?_, ?_⟩
  · rw [hcaptured.returns f.member hmember hreturns]
    decide
  · exact hroot.params f.member hmember 0 hparam

/-- The result of the method is a string, as which the subject fills the parameter of another class. -/
theorem undeclared_variable_captured :
    let s := run capturing
    s.Built ∧ s.Acyclic ∧ (s.describe storeClass).typeParameter? "T" = none ∧
      ∃ f ∈ s.shownMethods derivedClass, f.owner = storeClass ∧ f.member.declaring = some storeClass ∧
        f.member.declaredReturns = .var "T" ∧
        s.returnsAt f.member derivedClass = .of (.builtIn .string) := by
  intro s
  have hacyclic : s.Acyclic := acyclic_of_rank classRank (by decide)
  obtain ⟨f, hf, howner, hdeclaring, hreturns, hstring⟩ :
      ∃ f, (s.shownMethods derivedClass)[0]? = some f ∧ f.owner = storeClass ∧
        f.member.declaring = some storeClass ∧ f.member.declaredReturns = .var "T" ∧
        s.returnsAt f.member derivedClass = .of (.builtIn .string) :=
    ⟨_, rfl, rfl, rfl, rfl, by decide⟩
  exact ⟨⟨capturing, by simp [capturing, Operation.isAmendment], rfl⟩, hacyclic, by decide, f,
    List.mem_of_getElem? hf, howner, hdeclaring, hreturns, hstring⟩

end Introspect.Schema
