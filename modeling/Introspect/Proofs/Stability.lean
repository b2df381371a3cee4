import Introspect.Proofs.Composition
import Introspect.Proofs.Confinement
import Introspect.Proofs.Congruence
import Introspect.Proofs.Erasure

/-! Erased types that do not drift. A type erases the declared types of a member when the member is declared,
and again whenever they are asked for. In between it may get more parameters. If nothing mentions these
before, both give the same. -/
namespace Introspect

/-- An array of the parameter itself, of any rank, bounds it. No type is its own array. -/
def TypeParameter.boundedByOwnArray (p : TypeParameter) : Bool :=
  match p.bound with
  | .array component => component.elementVar? = some p.name
  | _ => false

theorem TypeParameter.elementVar?_ne {p : TypeParameter} {name : String} (hp : ¬ p.boundedByOwnArray)
    (hbound : p.bound ≠ .var p.name) (h : p.bound.elementVar? = some name) : name ≠ p.name := by
  rintro rfl
  unfold boundedByOwnArray at hp
  cases hb : p.bound with
  | plain | applied =>
    rw [hb] at h
    cases h
  | var =>
    rw [hb] at h
    cases h
    exact hbound hb
  | array component =>
    rw [hb] at h hp
    exact hp (decide_eq_true h)

namespace Description

variable {d d' : Description} {p : TypeParameter} {id : TypeId}

/-- The variables in the bounds of the parameters and in the declared types of the members. -/
def mentions (d : Description) : List String :=
  d.typeParameters.flatMap (·.bound.vars) ++
    d.methods.flatMap (fun m => m.declaredReturns.vars ++ m.declaredParams.flatMap (·.vars)) ++
    d.fields.flatMap (·.declaredType.vars)

/-- The parameter is declared already, or it is new and nothing mentions it. In its own bound it may stand as
the bound itself or as an argument. -/
def Admits (d : Description) (p : TypeParameter) : Prop :=
  (d.typeParameter? p.name).isSome ∨ p.name ∉ d.mentions ∧ ¬ p.boundedByOwnArray

instance (d : Description) (p : TypeParameter) : Decidable (d.Admits p) :=
  inferInstanceAs (Decidable (_ ∨ _))

/-- A variable erases alike in two types where it has the same bound, and the bound erases alike. -/
theorem eraseVar_succ_congr {depth depth' : Nat} {name : String}
    (hsame : d.typeParameter? name = d'.typeParameter? name)
    (hbound : ∀ p, d.typeParameter? name = some p → p.bound ≠ .var name →
      ∀ x, p.bound.elementVar? = some x → d.eraseVar depth x = d'.eraseVar depth' x) :
    d.eraseVar (depth + 1) name = d'.eraseVar (depth' + 1) name := by
  unfold eraseVar
  rw [← hsame]
  cases hp : d.typeParameter? name with
  | none => rfl
  | some p =>
    have hbound := hbound p hp
    dsimp only
    cases hb : p.bound with
    | plain t => rfl
    | applied raw args => rfl
    | array component =>
      rw [hb] at hbound
      have hother : TypeExpr.array component ≠ .var name := by simp
      exact TypeExpr.eraseWith_congr (.array component) (hbound hother)
    | var x =>
      rw [hb] at hbound
      dsimp only
      split_ifs with hself
      · rfl
      · exact hbound (fun heq => hself (TypeExpr.var.inj heq)) x rfl

/-- Bounds are followed to their ends, so that following them further makes no difference. -/
def Settled (d : Description) : Prop :=
  ∀ name, d.eraseVar (d.typeParameters.length + 1) name = d.eraseVar d.typeParameters.length name

/-- One step further is no further. -/
theorem Settled.succ (h : d.Settled) (name : String) :
    d.eraseVar (d.typeParameters.length + 2) name = d.eraseVar (d.typeParameters.length + 1) name :=
  eraseVar_succ_congr rfl fun _ _ _ x _ => h x

theorem settled_of_no_parameters (h : d.typeParameters = []) : d.Settled := by
  intro name
  have hnone : d.typeParameter? name = none := by
    unfold typeParameter?
    rw [h, List.find?_nil]
  simp [h, eraseVar, hnone]

theorem settled_ofBuiltIn (type : BuiltIn) : (ofBuiltIn type).Settled := by
  by_cases hlist : type = .list
  · subst hlist
    intro name
    refine eraseVar_succ_congr rfl fun p hp _ x hx => ?_
    -- The one parameter has no bound.
    have hm : p ∈ [({ name := "E" } : TypeParameter)] := List.mem_of_find?_eq_some hp
    rw [List.mem_singleton.1 hm] at hx
    cases hx
  · exact settled_of_no_parameters (if_neg hlist)

section

variable (hnew : d.typeParameter? p.name = none)
include hnew

theorem typeParameters_addTypeParameter :
    (d.addTypeParameter p).typeParameters = d.typeParameters ++ [p] := by
  simp [addTypeParameter, hnew]

theorem typeParameter?_addTypeParameter (name : String) :
    (d.addTypeParameter p).typeParameter? name = if name = p.name then some p else d.typeParameter? name := by
  unfold typeParameter? at hnew ⊢
  rw [typeParameters_addTypeParameter hnew, List.find?_append]
  split_ifs with hname
  · rw [hname, hnew]
    simp
  · have hother : List.find? (fun q => q.name = name) [p] = none := by
      simpa using Ne.symm hname
    rw [hother, Option.or_none]

variable (hbounds : ∀ q ∈ d.typeParameters, p.name ∉ q.bound.vars)
include hbounds

/-- Other variables do not depend on a new parameter that no bound mentions. -/
theorem eraseVar_addTypeParameter {name : String} (hname : name ≠ p.name) (depth : Nat) :
    (d.addTypeParameter p).eraseVar depth name = d.eraseVar depth name := by
  induction depth generalizing name with
  | zero => rfl
  | succ depth ih =>
    have hsame : (d.addTypeParameter p).typeParameter? name = d.typeParameter? name := by
      rw [typeParameter?_addTypeParameter hnew, if_neg hname]
    refine eraseVar_succ_congr hsame fun q hq _ x hx => ih ?_
    rintro rfl
    rw [hsame] at hq
    exact hbounds q (List.mem_of_find?_eq_some hq) (q.bound.elementVar?_mem_vars hx)

theorem Settled.addTypeParameter (h : d.Settled) (hp : ¬ p.boundedByOwnArray) :
    (d.addTypeParameter p).Settled := by
  have hlength : (d.addTypeParameter p).typeParameters.length = d.typeParameters.length + 1 := by
    rw [typeParameters_addTypeParameter hnew, List.length_append, List.length_singleton]
  have hothers {x : String} (hx : x ≠ p.name) :
      (d.addTypeParameter p).eraseVar (d.typeParameters.length + 1) x =
        (d.addTypeParameter p).eraseVar d.typeParameters.length x := by
    rw [eraseVar_addTypeParameter hnew hbounds hx, eraseVar_addTypeParameter hnew hbounds hx, h x]
  intro name
  rw [hlength]
  by_cases hname : name = p.name
  · refine eraseVar_succ_congr rfl fun q hq hself x hx => hothers ?_
    rw [typeParameter?_addTypeParameter hnew, if_pos hname] at hq
    cases hq
    exact p.elementVar?_ne hp (hname ▸ hself) hx
  · rw [eraseVar_addTypeParameter hnew hbounds hname, eraseVar_addTypeParameter hnew hbounds hname]
    exact h.succ name

theorem Settled.erase_addTypeParameter (h : d.Settled) {e : TypeExpr} (he : p.name ∉ e.vars) :
    (d.addTypeParameter p).erase e = d.erase e := by
  unfold erase
  rw [typeParameters_addTypeParameter hnew, List.length_append, List.length_singleton]
  refine e.eraseWith_congr fun x hx => ?_
  have hne : x ≠ p.name := by
    rintro rfl
    exact he (e.elementVar?_mem_vars hx)
  rw [eraseVar_addTypeParameter hnew hbounds hne]
  exact h x

end

end Description

/-- The recorded types are what the declared ones erase to, where there are any. -/
structure Method.Faithful (id : TypeId) (d : Description) (m : Method) : Prop where
  declaring : ∀ owner, m.declaring = some owner → owner = id
  returns : ¬ m.declaredReturns.isEmpty → d.erase m.declaredReturns = m.returns
  params : m.declaredParams.length = m.params.length → m.declaredParams.map d.erase = m.params

structure Field.Faithful (id : TypeId) (d : Description) (f : Field) : Prop where
  declaring : ∀ owner, f.declaring = some owner → owner = id
  type : ¬ f.declaredType.isEmpty → d.erase f.declaredType = f.type

theorem MethodDeclaration.method_faithful (m : MethodDeclaration) (id : TypeId) (d : Description) :
    (m.method id d).Faithful id d where
  declaring _ h := (Option.some.inj h).symm
  returns _ := by
    unfold method
    dsimp only
    cases m.declaredReturns with
    | some e => rfl
    | none =>
      cases m.result with
      | none => rfl
      | some t => exact t.eraseWith_expr _
  params _ := by
    unfold method
    dsimp only
    split_ifs
    · rw [List.map_map]
      exact List.map_congr_left fun t _ => t.eraseWith_expr _
    · rfl

theorem FieldDeclaration.field_faithful (f : FieldDeclaration) (id : TypeId) (d : Description) :
    (f.field id d).Faithful id d where
  declaring _ h := (Option.some.inj h).symm
  type _ := by
    unfold field
    dsimp only
    cases f.declaredType with
    | some e => rfl
    | none => exact f.type.eraseWith_expr _

section

variable {id : TypeId} {d d' : Description} {m : Method} {f : Field}

theorem Method.Faithful.congr (h : m.Faithful id d)
    (hreturns : d'.erase m.declaredReturns = d.erase m.declaredReturns)
    (hparams : ∀ e ∈ m.declaredParams, d'.erase e = d.erase e) : m.Faithful id d' where
  declaring := h.declaring
  returns hne := hreturns.trans (h.returns hne)
  params hlength := (List.map_congr_left hparams).trans (h.params hlength)

theorem Field.Faithful.congr (h : f.Faithful id d) (htype : d'.erase f.declaredType = d.erase f.declaredType) :
    f.Faithful id d' where
  declaring := h.declaring
  type hne := htype.trans (h.type hne)

/-- A member that is detached or loses its declared types keeps the erased ones. -/
theorem Amendment.method_faithful (a : Amendment) (h : m.Faithful id d) : (a.method m).Faithful id d where
  declaring owner howner := by
    unfold Amendment.method at howner
    dsimp only at howner
    split_ifs at howner
    exact h.declaring owner howner
  returns hne := by
    unfold Amendment.method at hne ⊢
    dsimp only at hne ⊢
    split_ifs at hne ⊢
    · exact absurd rfl hne
    · exact h.returns hne
  params hlength := by
    unfold Amendment.method at hlength ⊢
    dsimp only at hlength ⊢
    split_ifs at hlength ⊢
    · exact (List.eq_nil_of_length_eq_zero hlength.symm).symm
    · exact h.params hlength

theorem Amendment.field_faithful (a : Amendment) (h : f.Faithful id d) : (a.field f).Faithful id d where
  declaring owner howner := by
    unfold Amendment.field at howner
    dsimp only at howner
    split_ifs at howner
    exact h.declaring owner howner
  type hne := by
    unfold Amendment.field at hne ⊢
    dsimp only at hne ⊢
    split_ifs at hne ⊢
    · exact absurd rfl hne
    · exact h.type hne

end

/-- All members are faithful, and stay so when bounds are followed further. -/
structure Description.Faithful (id : TypeId) (d : Description) : Prop where
  settled : d.Settled
  methods : ∀ m ∈ d.methods, m.Faithful id d
  fields : ∀ f ∈ d.fields, f.Faithful id d

namespace Description.Faithful

variable {id : TypeId} {d d' : Description} {p : TypeParameter}

theorem placeholder (id : TypeId) (name : String) (category : Category) :
    (Description.placeholder name category).Faithful id where
  settled := settled_of_no_parameters rfl
  methods _ hm := nomatch hm
  fields _ hf := nomatch hf

theorem ofBuiltIn (type : BuiltIn) : (Description.ofBuiltIn type).Faithful (.builtIn type) where
  settled := settled_ofBuiltIn type
  methods _ hm := nomatch hm
  fields _ hf := nomatch hf

/-- With the same parameters, only new members matter. -/
theorem of_same_parameters (h : d.Faithful id) (hsame : d'.typeParameters = d.typeParameters)
    (hmethods : ∀ m ∈ d'.methods, m.Faithful id d) (hfields : ∀ f ∈ d'.fields, f.Faithful id d) :
    d'.Faithful id := by
  have herase : d'.erase = d.erase := erase_congr hsame
  refine ⟨?_, fun m hm => ?_, fun f hf => ?_⟩
  · intro name
    rw [hsame, eraseVar_congr hsame, eraseVar_congr hsame]
    exact h.settled name
  · exact (hmethods m hm).congr (by rw [herase]) fun _ _ => by rw [herase]
  · exact (hfields f hf).congr (by rw [herase])

theorem addTypeParameter (h : d.Faithful id) (hp : d.Admits p) : (d.addTypeParameter p).Faithful id := by
  rcases hp with hold | ⟨hmentions, hbound⟩
  · rwa [Description.addTypeParameter, if_pos hold]
  · by_cases hold : (d.typeParameter? p.name).isSome
    · rwa [Description.addTypeParameter, if_pos hold]
    · have hnew : d.typeParameter? p.name = none := Option.not_isSome_iff_eq_none.1 hold
      simp only [mentions, List.mem_append, List.mem_flatMap, not_or, not_exists, not_and] at hmentions
      obtain ⟨⟨hbounds, hmethods⟩, hfields⟩ := hmentions
      refine ⟨h.settled.addTypeParameter hnew hbounds hbound, fun m hm => ?_, fun f hf => ?_⟩
      · rw [addTypeParameter_methods] at hm
        obtain ⟨hreturns, hparams⟩ := hmethods m hm
        refine (h.methods m hm).congr ?_ fun e he => ?_
        · exact h.settled.erase_addTypeParameter hnew hbounds hreturns
        · exact h.settled.erase_addTypeParameter hnew hbounds (hparams e he)
      · rw [addTypeParameter_fields] at hf
        exact (h.fields f hf).congr (h.settled.erase_addTypeParameter hnew hbounds (hfields f hf))

theorem opened (h : d.Faithful id) (traits : ClassTraits) : (d.opened id traits).Faithful id := by
  rw [opened_eq]
  exact h.of_same_parameters rfl h.methods h.fields

theorem extend (h : d.Faithful id) {declaration : Declaration}
    (hp : ∀ p, declaration = .typeParameter p → d.Admits p) : (declaration.extend id d).Faithful id := by
  cases declaration with
  | asInterface | asAbstract | superclass | interface => exact h.of_same_parameters rfl h.methods h.fields
  | typeParameter p => exact h.addTypeParameter (hp p rfl)
  | method m =>
    refine h.of_same_parameters rfl (fun m' hm => ?_) h.fields
    rcases List.mem_append.1 hm with hold | hnew
    · exact h.methods m' hold
    · rw [List.mem_singleton.1 hnew]
      exact m.method_faithful id d
  | field f =>
    refine h.of_same_parameters rfl h.methods fun f' hf => ?_
    rcases List.mem_append.1 hf with hold | hnew
    · exact h.fields f' hold
    · rw [List.mem_singleton.1 hnew]
      exact f.field_faithful id d
  | constructor c =>
    rw [Declaration.extend, addConstructor_eq]
    exact h.of_same_parameters rfl h.methods h.fields

theorem amended (h : d.Faithful id) (kind : MemberKind) (index : Nat) (a : Amendment) :
    (a.apply kind index d).Faithful id := by
  cases kind with
  | method =>
    refine h.of_same_parameters rfl (fun m hm => ?_) h.fields
    rcases exists_of_mem_modify hm with hold | ⟨m, hold, rfl⟩
    · exact h.methods m hold
    · exact a.method_faithful (h.methods m hold)
  | field =>
    refine h.of_same_parameters rfl h.methods fun f hf => ?_
    rcases exists_of_mem_modify hf with hold | ⟨f, hold, rfl⟩
    · exact h.fields f hold
    · exact a.field_faithful (h.fields f hold)
  | constructor => exact h.of_same_parameters rfl h.methods h.fields

end Description.Faithful

namespace Schema

/-- The type parameter that is declared, and the type it is declared of. -/
def Operation.parameter? : Operation → Option (TypeId × TypeParameter)
  | declare id (.typeParameter p) => some (id, p)
  | _ => none

/-- Nothing in the type mentions a parameter that is declared only now. -/
def Operation.Orderly (s : Schema) (o : Operation) : Prop :=
  ∀ e ∈ o.parameter?, s.contains e.1 → (s.describe e.1).Admits e.2

instance (s : Schema) (o : Operation) : Decidable (o.Orderly s) :=
  inferInstanceAs (Decidable (∀ e ∈ o.parameter?, _))

/-- Each operation is orderly in the state that it meets. -/
def OrderlyFrom : Schema → List Operation → Prop
  | _, [] => True
  | s, o :: rest => o.Orderly s ∧ OrderlyFrom (o.apply s) rest

instance : (s : Schema) → (operations : List Operation) → Decidable (OrderlyFrom s operations)
  | _, [] => inferInstanceAs (Decidable True)
  | s, o :: rest =>
    have : Decidable (OrderlyFrom (o.apply s) rest) := instDecidableOrderlyFrom (o.apply s) rest
    inferInstanceAs (Decidable (_ ∧ _))

variable {s : Schema} {id : TypeId}

private theorem faithful_result {o : Operation} (howner : o.owner? = some id) {former : Option Description}
    (h : ∀ d, former = some d → d.Faithful id)
    (hp : ∀ d p, former = some d → o.parameter? = some (id, p) → d.Admits p) {d : Description}
    (hd : o.result former = some d) : d.Faithful id := by
  cases o with
  | mention => cases howner
  | reopen id traits name =>
    cases howner
    cases hd
    have hformer : (former.getD (.placeholder name .concrete)).Faithful id := by
      cases hold : former with
      | none => exact .placeholder id name .concrete
      | some d => exact h d hold
    have hnamed : ({ former.getD (.placeholder name .concrete) with name } : Description).Faithful id :=
      hformer.of_same_parameters rfl hformer.methods hformer.fields
    exact hnamed.opened traits
  | declare id declaration =>
    cases howner
    obtain ⟨d, hold, rfl⟩ := Option.map_eq_some_iff.1 hd
    refine (h d hold).extend fun p hdeclaration => hp d p hold ?_
    rw [hdeclaration]
    rfl
  | amend id kind index a =>
    cases howner
    obtain ⟨d, hold, rfl⟩ := Option.map_eq_some_iff.1 hd
    exact (h d hold).amended kind index a

/-- Where no parameter comes late, members stay faithful. -/
theorem Everywhere.faithful_apply (h : s.Everywhere Description.Faithful) (hs : s.Indexed) {o : Operation}
    (ho : o.Orderly s) : (o.apply s).Everywhere Description.Faithful := by
  intro id
  by_cases hown : o.owner? = some id ∧ o.outcome s = .ok ()
  · obtain ⟨howner, hok⟩ := hown
    have htypes := (hs.confined_of_ok o hok).2 id howner
    have hdescribed {d : Description} (hd : s.types.get? id = some d) : s.describe id = d := by
      rw [describe, hd, Option.getD_some]
    unfold describe
    cases hd : (o.apply s).types.get? id with
    | none => exact .placeholder id _ _
    | some d =>
      refine faithful_result howner (fun d hold => hdescribed hold ▸ h id) (fun d p hold hp => ?_)
        (htypes.symm.trans hd)
      rw [← hdescribed hold]
      exact ho (id, p) hp (by simp [Schema.contains, Table.contains, hold])
  · have hcases : (o.apply s).describe id = s.describe id ∨
        ∃ name category, (o.apply s).describe id = .placeholder name category := by
      by_cases hok : o.outcome s = .ok ()
      · exact (hs.confined_of_ok o hok).1.describe_cases fun howner => hown ⟨howner, hok⟩
      · exact (confined_of_error s o hok).describe_cases (Option.some_ne_none id).symm
    rcases hcases with hsame | ⟨name, category, hplaceholder⟩
    · rw [hsame]
      exact h id
    · rw [hplaceholder]
      exact .placeholder id name category

theorem Everywhere.faithful_foldl {operations : List Operation} (h : s.Everywhere Description.Faithful)
    (hs : s.Indexed) (ho : OrderlyFrom s operations) :
    (operations.foldl (fun s o => o.apply s) s).Everywhere Description.Faithful := by
  induction operations generalizing s with
  | nil => exact h
  | cons o rest ih =>
    obtain ⟨hfirst, hrest⟩ := ho
    exact ih (h.faithful_apply hs hfirst) (hs.apply o) hrest

theorem faithful_run {operations : List Operation} (h : OrderlyFrom builtIn operations) :
    (run operations).Everywhere Description.Faithful := by
  have hbuiltIn : builtIn.Everywhere Description.Faithful :=
    .builtIn (fun id => .placeholder id _ _) .ofBuiltIn
  exact hbuiltIn.faithful_foldl .builtIn h

theorem resolveErased_self (s : Schema) (e : TypeExpr) (id : TypeId) :
    s.resolveErased e id id = (s.describe id).erase e := by
  unfold resolveErased
  rw [resolve_self]

theorem returnsAt_of_faithful {m : Method} (h : m.Faithful id (s.describe id)) :
    s.returnsAt m id = m.returns := by
  unfold returnsAt
  cases hdeclaring : m.declaring with
  | none => rfl
  | some owner =>
    dsimp only
    split_ifs with hempty
    · rfl
    · rw [h.declaring owner hdeclaring, resolveErased_self]
      exact h.returns hempty

theorem paramsAt_of_faithful {m : Method} (h : m.Faithful id (s.describe id)) :
    s.paramsAt m id = m.params := by
  unfold paramsAt
  cases hdeclaring : m.declaring with
  | none => rfl
  | some owner =>
    dsimp only
    split_ifs with hlength
    · rw [h.declaring owner hdeclaring]
      simp only [resolveErased_self]
      exact h.params hlength
    · rfl

theorem fieldTypeAt_of_faithful {f : Field} (h : f.Faithful id (s.describe id)) :
    s.fieldTypeAt f id = f.type := by
  unfold fieldTypeAt
  cases hdeclaring : f.declaring with
  | none => rfl
  | some owner =>
    dsimp only
    split_ifs with hempty
    · rfl
    · rw [h.declaring owner hdeclaring, resolveErased_self]
      exact h.type hempty

/-- Where every type parameter is declared before anything in its type mentions it, the recorded types of
every member are those that the type sees at any time. -/
theorem recorded_types_resolve (operations : List Operation) (h : OrderlyFrom builtIn operations)
    (id : TypeId) :
    let s := run operations
    (∀ m ∈ (s.describe id).methods, s.returnsAt m id = m.returns ∧ s.paramsAt m id = m.params) ∧
      ∀ f ∈ (s.describe id).fields, s.fieldTypeAt f id = f.type := by
  intro s
  have hfaithful : (s.describe id).Faithful id := faithful_run h id
  constructor
  · intro m hm
    have hm := hfaithful.methods m hm
    exact ⟨returnsAt_of_faithful hm, paramsAt_of_faithful hm⟩
  · intro f hf
    exact fieldTypeAt_of_faithful (hfaithful.fields f hf)

/-- Parameters are declared before and after members. One is bounded by a list of its own, and one by itself. -/
def shelving : List Operation := [
  .reopen storeClass {} "Store",
  .declare storeClass (.typeParameter
    { name := "K", bound := .applied (.of (.builtIn .list)) [.var "K"] }),
  .declare storeClass (.typeParameter { name := "V", bound := .array (.var "K") }),
  .declare storeClass (.method
    { name := "find", result := some (.sequence .array (.sequence .deque (.sequence .array .int))),
      params := [.object, .sequence .array .object], declaredParams := [.var "V", .array (.var "V")],
      body := .nothing }),
  .declare storeClass (.typeParameter { name := "K", bound := .var "V" }),
  .declare storeClass (.typeParameter { name := "E", bound := .var "E" }),
  .declare storeClass (.method
    { name := "first", result := some .string, declaredReturns := some .empty, body := .nothing }),
  .declare storeClass (.field
    { name := "items", type := .object, storage := .slot "items", declaredType := some (.array (.var "E")) })]

/-- Declared types that are given, left out and empty, of arrays and of lists. -/
theorem recorded_types_resolve_shelving :
    let s := run shelving
    OrderlyFrom builtIn shelving ∧
      (∃ find ∈ (s.describe storeClass).methods,
        s.returnsAt find storeClass = (RuntimeType.of (.builtIn .list)).array ∧
        s.paramsAt find storeClass =
          [(RuntimeType.of (.builtIn .list)).array, (RuntimeType.of (.builtIn .list)).array.array]) ∧
      (∃ first ∈ (s.describe storeClass).methods,
        first.declaredReturns.isEmpty ∧ s.returnsAt first storeClass = .object) ∧
      ∃ items ∈ (s.describe storeClass).fields,
        s.fieldTypeAt items storeClass = RuntimeType.object.array := by
  intro s
  have horderly : OrderlyFrom builtIn shelving := by decide +kernel
  obtain ⟨hmethods, hfields⟩ := recorded_types_resolve shelving horderly storeClass
  obtain ⟨find, first, hfind, hfirst, hreturns, hparams, hempty, hfirstReturns⟩ :
      ∃ find first, find ∈ (s.describe storeClass).methods ∧ first ∈ (s.describe storeClass).methods ∧
        find.returns = (RuntimeType.of (.builtIn .list)).array ∧
        find.params =
          [(RuntimeType.of (.builtIn .list)).array, (RuntimeType.of (.builtIn .list)).array.array] ∧
        first.declaredReturns.isEmpty ∧ first.returns = .object :=
    ⟨_, _, .head _, .tail _ (.head _), rfl, rfl, rfl, rfl⟩
  obtain ⟨items, hitems, htype⟩ :
      ∃ items, items ∈ (s.describe storeClass).fields ∧ items.type = RuntimeType.object.array :=
    ⟨_, .head _, rfl⟩
  refine ⟨horderly, ⟨find, hfind, ?_, ?_⟩, ⟨first, hfirst, hempty, ?_⟩, items, hitems, ?_⟩
  · exact (hmethods find hfind).1.trans hreturns
  · exact (hmethods find hfind).2.trans hparams
  · exact (hmethods first hfirst).1.trans hfirstReturns
  · exact (hfields items hitems).trans htype

/-- A parameter that comes after a method that mentions it changes what the method is seen to return. -/
example :
    let s := run [
      .reopen storeClass {} "Store",
      .declare storeClass (.method
        { name := "get", result := some .string, declaredReturns := some (.var "T"), body := .nothing }),
      .declare storeClass (.typeParameter { name := "T", bound := .plain (.of (.builtIn .string)) })]
    (s.describe storeClass).methods.map (fun m => (m.returns, s.returnsAt m storeClass)) =
      [(.object, .of (.builtIn .string))] := by decide +kernel

end Schema
end Introspect
