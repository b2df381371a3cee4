import Introspect.Schema.Amendment
import Introspect.Schema.Declaration
import Mathlib.Tactic.SplitIfs

/-! What the operations on a schema come to. A declaration lists types and then changes one description;
opening a class lists it, renames it and changes its description. -/
namespace Introspect

namespace Declaration

/-- Whether the signature is in order; only that of a method can be wrong. -/
def fits : Declaration → Bool
  | method m => m.fits
  | _ => true

/-- The types that are listed before the description changes, and what each is taken for. -/
def listed : Declaration → List (TypeId × Category)
  | superclass l => l.base.toList.map (·, .concrete)
  | interface l => l.base.toList.map (·, .interface)
  | method m =>
    ((if m.declaredReturns.isNone then m.result.elim [] HostType.mentioned else []) ++
      if m.declaredParams.isEmpty then m.params.flatMap HostType.mentioned else []).map
        fun id => (id, id.category)
  | field f =>
    (if f.declaredType.isNone then f.type.mentioned else []).map fun id => (id, id.category)
  | constructor c =>
    (c.params.flatMap fun t => t.erased.element.toList).map fun id => (id, id.category)
  | _ => []

/-- What becomes of the description of a type. -/
def extend (id : TypeId) : Declaration → Description → Description
  | asInterface, d => { d with category := .interface, isAbstract := true }
  | asAbstract, d => { d with isAbstract := true }
  | typeParameter p, d => d.addTypeParameter p
  | superclass l, d => { d with superclass := some l.link }
  | interface l, d => { d with interfaces := d.interfaces ++ [l.link] }
  | method m, d => { d with methods := d.methods ++ [m.method id d] }
  | field f, d => { d with fields := d.fields ++ [f.field id d] }
  | constructor c, d => d.addConstructor (c.constructor id)

end Declaration

namespace Description

theorem addConstructor_eq (d : Description) (c : Constructor) :
    d.addConstructor c = { d with
      constructors := if c.arity = 0 ∧ d.defaultConstructor?.isSome then d.constructors
        else d.constructors ++ [c] } := by
  unfold addConstructor
  split_ifs <;> rfl

theorem mem_addConstructor {d : Description} {c k : Constructor}
    (h : k ∈ (d.addConstructor c).constructors) : k ∈ d.constructors ∨ k = c := by
  rw [addConstructor_eq] at h
  dsimp only at h
  split_ifs at h
  · exact Or.inl h
  · simpa using h

theorem addTypeParameter_eq (d : Description) (p : TypeParameter) :
    d.addTypeParameter p = { d with
      typeParameters := if (d.typeParameter? p.name).isSome then d.typeParameters
        else d.typeParameters ++ [p] } := by
  unfold addTypeParameter
  split_ifs <;> rfl

/-- The first constructor without parameters is the one that a class is opened with, unless there is one
already. -/
theorem opened_eq (d : Description) (id : TypeId) (traits : ClassTraits) :
    d.opened id traits = { d with
      isAbstract := traits.isAbstract || d.isAbstract
      constructors := if traits.isDefaultConstructible then
          (d.addConstructor (ConstructorDeclaration.default.constructor id)).constructors
        else d.constructors } := by
  unfold opened
  simp only [addConstructor_eq]
  cases traits.isAbstract <;> cases traits.isDefaultConstructible <;> rfl

@[simp] theorem opened_name (d : Description) (id : TypeId) (traits : ClassTraits) :
    (d.opened id traits).name = d.name := by
  rw [opened_eq]

end Description

@[simp] theorem Declaration.extend_name (declaration : Declaration) (id : TypeId) (d : Description) :
    (declaration.extend id d).name = d.name := by
  cases declaration with
  | typeParameter p => rw [extend, Description.addTypeParameter_eq]
  | constructor c => rw [extend, Description.addConstructor_eq]
  | asInterface | asAbstract | superclass | interface | method | field => rfl

namespace Schema

variable (s : Schema) (id id' : TypeId)

theorem describe_update (f : Description → Description) :
    (s.update id f).describe id' =
      if id' = id ∧ s.contains id then f (s.describe id) else s.describe id' := by
  unfold update describe contains Table.contains
  rw [Table.get?_modify]
  by_cases hid : id' = id
  · subst hid
    cases s.types.get? id' <;> simp
  · simp [hid]

theorem describe_ensure (name : String) (category : Category) :
    (s.ensure id name category).describe id' =
      if id' = id ∧ ¬ s.contains id then .placeholder name category else s.describe id' := by
  unfold ensure
  split_ifs with hc h h
  · exact absurd hc h.2
  · rfl
  · rw [h.1]
    simp [describe]
  · unfold describe
    rw [Table.get?_insert_of_ne _ _ fun heq => h ⟨heq, hc⟩]

@[simp] theorem contains_update (f : Description → Description) :
    (s.update id f).contains id' = s.contains id' := by
  unfold contains update Table.contains
  rw [Table.get?_modify]
  split_ifs with hid
  · rw [hid, Option.isSome_map]
  · rfl

theorem contains_ensure (name : String) (category : Category) :
    (s.ensure id name category).contains id' ↔ id' = id ∨ s.contains id' := by
  unfold ensure
  split_ifs with hc
  · exact ⟨Or.inr, fun h => h.elim (fun heq => heq ▸ hc) fun h => h⟩
  · simp [contains, Table.contains_insert]

theorem contains_ensure_self (name : String) (category : Category) :
    (s.ensure id name category).contains id :=
  (contains_ensure s id id name category).2 (Or.inl rfl)

@[simp] theorem find?_update (f : Description → Description) (name : String) :
    (s.update id f).find? name = s.find? name := rfl

/-- A new type takes its name only where no other type has it. -/
theorem find?_ensure (name n : String) (category : Category) :
    (s.ensure id name category).find? n =
      if n = name ∧ s.find? name = none ∧ ¬ s.contains id then some id else s.find? n := by
  unfold ensure find? Table.insertIfNew Table.contains
  by_cases hc : s.contains id
  · simp [hc]
  · cases hname : s.names.get? name with
    | none => by_cases hn : n = name <;> simp [hc, hn, Table.get?_insert_of_ne]
    | some owner => simp [hc]

/-- Lists types under their default names. -/
def listAll (s : Schema) (types : List (TypeId × Category)) : Schema :=
  types.foldl (fun s e => s.ensure e.1 e.1.defaultName e.2) s

variable {s}

theorem mentionAll_eq (ids : List TypeId) :
    s.mentionAll ids = s.listAll (ids.map fun id => (id, id.category)) := by
  rw [listAll, List.foldl_map]
  rfl

theorem listAll_append (types types' : List (TypeId × Category)) :
    s.listAll (types ++ types') = (s.listAll types).listAll types' :=
  List.foldl_append

private theorem foldl_mentionAll_eq {α : Type} (mentioned : α → List TypeId) (types : List α) :
    types.foldl (fun s t => s.mentionAll (mentioned t)) s =
      s.listAll ((types.flatMap mentioned).map fun id => (id, id.category)) := by
  induction types generalizing s with
  | nil => rfl
  | cons t rest ih =>
    rw [List.foldl_cons, ih, mentionAll_eq, List.flatMap_cons, List.map_append, listAll_append]

private theorem ensureBase_eq (base : Option TypeId) (category : Category) :
    s.ensureBase base category = s.listAll (base.toList.map (·, category)) := by
  cases base <;> rfl

theorem contains_listAll (types : List (TypeId × Category)) :
    (s.listAll types).contains id ↔ s.contains id ∨ id ∈ types.map Prod.fst := by
  induction types generalizing s with
  | nil => simp [listAll]
  | cons e rest ih =>
    rw [listAll, List.foldl_cons, ← listAll, ih, contains_ensure, List.map_cons, List.mem_cons]
    grind

/-- A type that is new is described as before, but for what it is taken for. -/
theorem describe_listAll (types : List (TypeId × Category)) :
    (s.listAll types).describe id = s.describe id ∨
      ∃ category, (id, category) ∈ types ∧ id ∉ s.types.keys ∧
        (s.listAll types).describe id = .placeholder id.defaultName category := by
  induction types generalizing s with
  | nil => exact Or.inl rfl
  | cons e rest ih =>
    obtain ⟨listed, category⟩ := e
    change ((s.ensure listed listed.defaultName category).listAll rest).describe id = _ ∨ ∃ _, _
    rcases ih with hsame | ⟨c, hm, hnew, hplaceholder⟩
    · rw [describe_ensure] at hsame
      split_ifs at hsame with hid
      · rw [hid.1] at hsame ⊢
        have hnew : listed ∉ s.types.keys := fun hk => hid.2 ((Table.mem_keys_iff _ _).1 hk)
        exact Or.inr ⟨category, List.mem_cons_self, hnew, hsame⟩
      · exact Or.inl hsame
    · refine Or.inr ⟨c, List.mem_cons_of_mem _ hm, fun hk => hnew ?_, hplaceholder⟩
      rw [Table.mem_keys_iff] at hk ⊢
      exact (contains_ensure s listed id _ _).2 (Or.inr hk)

private theorem addMethod_eq (m : MethodDeclaration) :
    s.addMethod id m =
      let listed := s.listAll (Declaration.method m).listed
      if m.fits then (.ok (), listed.update id ((Declaration.method m).extend id))
      else (.error (.signatureLength m.name (listed.nameOf id)), listed) := by
  have hresult : (if m.declaredReturns.isNone then m.result.elim s s.mentionType else s) =
      s.mentionAll (if m.declaredReturns.isNone then m.result.elim [] HostType.mentioned else []) := by
    split_ifs
    · cases m.result <;> rfl
    · rfl
  have hparams (t : Schema) :
      (if m.declaredParams.isEmpty then m.params.foldl mentionType t else t) =
        t.mentionAll (if m.declaredParams.isEmpty then m.params.flatMap HostType.mentioned else []) := by
    split_ifs
    · exact (foldl_mentionAll_eq _ _).trans (mentionAll_eq _).symm
    · rfl
  have hlisted : s.listAll (Declaration.method m).listed =
      (s.mentionAll (if m.declaredReturns.isNone then m.result.elim [] HostType.mentioned else [])
        ).mentionAll (if m.declaredParams.isEmpty then m.params.flatMap HostType.mentioned else []) := by
    rw [mentionAll_eq, mentionAll_eq, ← listAll_append, ← List.map_append]
    rfl
  unfold addMethod
  dsimp only
  rw [hresult, hparams, hlisted]
  by_cases hfits : m.fits
  · rw [if_pos hfits, if_pos hfits]
    rfl
  · -- What does not fit is a list of declared parameters, so the host types were not looked at.
    have hempty : ¬ m.declaredParams.isEmpty := fun h => hfits (by simp [MethodDeclaration.fits, h])
    rw [if_neg hfits, if_neg hfits, if_neg hempty]
    rfl

/-- A declaration that is made lists types and then extends the description. One with a wrong signature
has listed them when it fails, and one of a type that is not listed does nothing. -/
theorem declare_cases (s : Schema) (id : TypeId) (declaration : Declaration) :
    (s.contains id ∧ declaration.fits ∧ s.declare id declaration =
      (.ok (), (s.listAll declaration.listed).update id (declaration.extend id))) ∨
    (s.contains id ∧ ¬ declaration.fits ∧
      ∃ f, s.declare id declaration = (.error f, s.listAll declaration.listed)) ∨
    (¬ s.contains id ∧ ∃ f, s.declare id declaration = (.error f, s)) := by
  by_cases hc : s.contains id
  · have hknown : s.known id id.defaultName = .ok id := if_pos hc
    unfold declare
    rw [hknown]
    cases declaration with
    | asInterface | asAbstract | typeParameter => exact Or.inl ⟨hc, rfl, rfl⟩
    | superclass l | interface l =>
      refine Or.inl ⟨hc, rfl, ?_⟩
      dsimp only
      rw [ensureBase_eq]
      rfl
    | field f =>
      refine Or.inl ⟨hc, rfl, ?_⟩
      simp only [addField, mentionType, mentionAll_eq, Declaration.listed]
      split_ifs <;> rfl
    | constructor c =>
      refine Or.inl ⟨hc, rfl, ?_⟩
      have hmentioned := foldl_mentionAll_eq (s := s) (fun t => t.erased.element.toList) c.params
      exact congrArg (fun t : Schema => (Except.ok (), t.update id _)) hmentioned
    | method m =>
      dsimp only
      rw [addMethod_eq]
      by_cases hfits : m.fits
      · exact Or.inl ⟨hc, hfits, if_pos hfits⟩
      · exact Or.inr (Or.inl ⟨hc, hfits, _, if_neg hfits⟩)
  · refine Or.inr (Or.inr ⟨hc, .notRegistered id.defaultName, ?_⟩)
    simp [declare, known, hc]

/-- A name that another type has is refused, one that the type has itself changes nothing, and any other
replaces the name that the type has. -/
theorem rename_cases (s : Schema) (id : TypeId) (name : String) :
    (∃ owner, s.find? name = some owner ∧ owner ≠ id ∧ s.rename id name = .error (.nameTaken name)) ∨
    (s.find? name = some id ∧ s.rename id name = .ok s) ∨
    (s.find? name = none ∧ s.rename id name = .ok { s.update id ({ · with name }) with
      names := (if s.find? (s.nameOf id) = some id then s.names.erase (s.nameOf id) else s.names).insert
        name id }) := by
  unfold rename
  cases hname : s.find? name with
  | none => exact Or.inr (Or.inr ⟨rfl, rfl⟩)
  | some owner =>
    by_cases howner : owner = id
    · exact Or.inr (Or.inl ⟨by rw [howner], if_pos howner⟩)
    · exact Or.inl ⟨owner, rfl, howner, if_neg howner⟩

/-- A class that cannot take the name is listed nevertheless. -/
theorem reopen_cases (s : Schema) (id : TypeId) (traits : ClassTraits) (name : String) :
    (∃ f, (s.ensure id name .concrete).rename id name = .error f ∧
      s.reopen id traits name = (.error f, s.ensure id name .concrete)) ∨
    (∃ t, (s.ensure id name .concrete).rename id name = .ok t ∧
      s.reopen id traits name = (.ok (), t.update id (·.opened id traits))) := by
  unfold reopen
  dsimp only
  cases hrename : (s.ensure id name .concrete).rename id name with
  | error f => exact Or.inl ⟨f, rfl, rfl⟩
  | ok t => exact Or.inr ⟨t, rfl, rfl⟩

end Schema
end Introspect
