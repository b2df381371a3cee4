import Introspect.Proofs.Acyclicity
import Introspect.Proofs.Effects

/-! Schemas that come about by opening classes, declaring, mentioning types and amending members, in any
order and with any failures, and what happens to the description of a type on the way. -/
namespace Introspect

/-- Everything that can happen to the description of a type at once, amendments apart. -/
inductive Description.Growth (id : TypeId) : Description → Description → Prop
  | named (d : Description) (name : String) : Growth id d { d with name }
  | asInterface (d : Description) : Growth id d { d with category := .interface, isAbstract := true }
  | asAbstract (d : Description) : Growth id d { d with isAbstract := true }
  | typeParameter (d : Description) (p : TypeParameter) : Growth id d (d.addTypeParameter p)
  | superclass (d : Description) (l : Link) : Growth id d { d with superclass := some l }
  | interface (d : Description) (l : Link) : Growth id d { d with interfaces := d.interfaces ++ [l] }
  | method (d : Description) (m : MethodDeclaration) (h : m.fits) :
      Growth id d { d with methods := d.methods ++ [m.method id d] }
  | field (d : Description) (f : FieldDeclaration) :
      Growth id d { d with fields := d.fields ++ [f.field id d] }
  | constructor (d : Description) (c : Constructor) : Growth id d (d.addConstructor c)

namespace Description

theorem Growth.extend {id : TypeId} {declaration : Declaration} (h : declaration.fits)
    (d : Description) : Growth id d (declaration.extend id d) := by
  cases declaration with
  | asInterface => exact .asInterface d
  | asAbstract => exact .asAbstract d
  | typeParameter p => exact .typeParameter d p
  | superclass l => exact .superclass d l.link
  | interface l => exact .interface d l.link
  | method m => exact .method d m h
  | field f => exact .field d f
  | constructor c => exact .constructor d _

theorem grows_opened (id : TypeId) (traits : ClassTraits) (d : Description) :
    Relation.ReflTransGen (Growth id) d (d.opened id traits) := by
  have habstract : Relation.ReflTransGen (Growth id) d
      (if traits.isAbstract then { d with isAbstract := true } else d) := by
    split_ifs
    · exact .single (.asAbstract d)
    · exact .refl
  unfold opened
  dsimp only
  split_ifs at habstract ⊢
  · exact habstract.tail (.constructor _ _)
  · exact habstract.tail (.constructor _ _)
  · exact habstract
  · exact habstract

end Description

/-- What a type can be taken for when it is listed. -/
def TypeId.MayBe (id : TypeId) (category : Category) : Prop :=
  category = .concrete ∨ category = .interface ∨ category = id.category

theorem Declaration.mayBe_of_mem_listed {declaration : Declaration} {id : TypeId} {category : Category}
    (h : (id, category) ∈ declaration.listed) : id.MayBe category := by
  cases declaration with
  | asInterface | asAbstract | typeParameter => exact absurd h List.not_mem_nil
  | superclass l =>
    obtain ⟨_, _, heq⟩ := List.mem_map.1 h
    cases heq
    exact Or.inl rfl
  | interface l =>
    obtain ⟨_, _, heq⟩ := List.mem_map.1 h
    cases heq
    exact Or.inr (Or.inl rfl)
  | method | field | constructor =>
    obtain ⟨_, _, heq⟩ := List.mem_map.1 h
    cases heq
    exact Or.inr (Or.inr rfl)

theorem exists_of_mem_modify {α : Type} {f : α → α} {l : List α} {i : Nat} {a : α}
    (h : a ∈ l.modify i f) : a ∈ l ∨ ∃ b ∈ l, a = f b := by
  obtain ⟨j, hj⟩ := List.mem_iff_getElem?.1 h
  rw [List.getElem?_modify] at hj
  obtain ⟨b, hb, rfl⟩ := Option.map_eq_some_iff.1 hj
  split_ifs
  · exact Or.inr ⟨b, List.mem_of_getElem? hb, rfl⟩
  · exact Or.inl (List.mem_of_getElem? hb)

namespace Schema

/-- What a host program does to a schema. -/
inductive Operation
  | reopen (id : TypeId) (traits : ClassTraits) (name : String)
  | declare (id : TypeId) (declaration : Declaration)
  | mention (id : TypeId)
  | amend (id : TypeId) (kind : MemberKind) (index : Nat) (amendment : Amendment)

def Operation.isAmendment : Operation → Bool
  | amend _ _ _ _ => true
  | _ => false

/-- An operation that fails keeps what it did before. -/
def Operation.apply : Operation → Schema → Schema
  | reopen id traits name, s => (s.reopen id traits name).2
  | declare id declaration, s => (s.declare id declaration).2
  | mention id, s => s.mention id
  | amend id kind index amendment, s => s.amend id kind index amendment

def run (operations : List Operation) : Schema := operations.foldl (fun s o => o.apply s) builtIn

/-- Comes about without amendments, whatever is linked to what. -/
def Built (s : Schema) : Prop :=
  ∃ operations, (∀ o ∈ operations, ¬ Operation.isAmendment o) ∧ run operations = s

/-- Declares a supertype of a built-in type, whose host type derives from no other. -/
def Operation.linksBuiltIn : Operation → Bool
  | declare (.builtIn _) (.superclass _) => true
  | declare (.builtIn _) (.interface _) => true
  | _ => false

/-- Comes about by the builders of classes. They amend nothing and link a class only to those it derives from, so
that no built-in type is linked. -/
def BuilderMade (s : Schema) : Prop :=
  ∃ operations : List Operation, (∀ o ∈ operations, ¬ o.isAmendment ∧ ¬ o.linksBuiltIn) ∧ run operations = s

theorem BuilderMade.built {s : Schema} (h : s.BuilderMade) : s.Built := by
  obtain ⟨operations, ho, hrun⟩ := h
  exact ⟨operations, fun o hm => (ho o hm).1, hrun⟩

/-- Holds of the description of every type. -/
def Everywhere (D : TypeId → Description → Prop) (s : Schema) : Prop := ∀ id, D id (s.describe id)

theorem Everywhere.update {D : TypeId → Description → Prop} {s : Schema} (hs : s.Everywhere D)
    (id : TypeId) {f : Description → Description} (hf : D id (s.describe id) → D id (f (s.describe id))) :
    (s.update id f).Everywhere D := by
  intro id'
  rw [describe_update]
  split_ifs with hid
  · rw [hid.1]
    exact hf (hs id)
  · exact hs id'

theorem Everywhere.builtIn {D : TypeId → Description → Prop}
    (hplaceholder : ∀ id : TypeId, D id (.placeholder id.defaultName id.category))
    (hbuiltIn : ∀ type, D (.builtIn type) (.ofBuiltIn type)) : Everywhere D builtIn := by
  intro id
  by_cases hid : id ∈ Schema.builtIn.types.keys
  · have hkeys : Schema.builtIn.types.keys = BuiltIn.all.map .builtIn := rfl
    rw [hkeys] at hid
    obtain ⟨type, _, rfl⟩ := List.mem_map.1 hid
    have hdescribe : Schema.builtIn.describe (.builtIn type) = .ofBuiltIn type := by
      cases type <;> rfl
    rw [hdescribe]
    exact hbuiltIn type
  · have hnone : Schema.builtIn.types.get? id = none := by
      simpa [Table.mem_keys_iff, Table.contains] using hid
    unfold describe
    rw [hnone]
    exact hplaceholder id

/-- Holds of types of which nothing is known yet, and is kept by every opening and every declaration. -/
structure Upheld (D : TypeId → Description → Prop) : Prop where
  placeholder : ∀ (id : TypeId) name category, id.MayBe category → D id (.placeholder name category)
  ofBuiltIn : ∀ type, D (.builtIn type) (.ofBuiltIn type)
  named : ∀ id d name, D id d → D id { d with name }
  opened : ∀ id d traits, D id d → D id (d.opened id traits)
  extended : ∀ id d (declaration : Declaration), declaration.fits → D id d →
    D id (declaration.extend id d)

/-- Holds of types of which nothing is known yet, and is kept by every declaration. -/
structure Growing (D : TypeId → Description → Prop) : Prop where
  placeholder : ∀ (id : TypeId) name category, id.MayBe category → D id (.placeholder name category)
  ofBuiltIn : ∀ type, D (.builtIn type) (.ofBuiltIn type)
  growth : ∀ id d d', Description.Growth id d d' → D id d → D id d'

/-- Amendments keep it too. -/
structure Lasting (D : TypeId → Description → Prop) : Prop extends Growing D where
  amended : ∀ id d kind index (a : Amendment), D id d → D id (a.apply kind index d)

namespace Upheld

variable {D : TypeId → Description → Prop} {s t : Schema}

theorem builtIn (h : Upheld D) : Everywhere D builtIn :=
  .builtIn (fun id => h.placeholder id _ _ (Or.inr (Or.inr rfl))) h.ofBuiltIn

theorem ensure (h : Upheld D) (hs : s.Everywhere D) {id : TypeId} (name : String)
    {category : Category} (hc : id.MayBe category) : (s.ensure id name category).Everywhere D := by
  intro id'
  rw [describe_ensure]
  split_ifs with hid
  · exact h.placeholder id' name category (hid.1 ▸ hc)
  · exact hs id'

theorem listAll (h : Upheld D) (hs : s.Everywhere D) {types : List (TypeId × Category)}
    (ht : ∀ e ∈ types, e.1.MayBe e.2) : (s.listAll types).Everywhere D := by
  intro id
  rcases s.describe_listAll id types with hsame | ⟨category, hm, _, hplaceholder⟩
  · rw [hsame]
    exact hs id
  · rw [hplaceholder]
    exact h.placeholder id _ category (ht _ hm)

theorem rename (h : Upheld D) (hs : s.Everywhere D) {id : TypeId} {name : String}
    (ht : s.rename id name = .ok t) : t.Everywhere D := by
  unfold Schema.rename at ht
  split at ht
  · split_ifs at ht
    cases ht
    exact hs
  · cases ht
    exact hs.update id fun hd => h.named id _ name hd

theorem reopen (h : Upheld D) (hs : s.Everywhere D) (id : TypeId) (traits : ClassTraits)
    (name : String) : (s.reopen id traits name).2.Everywhere D := by
  have hensured := h.ensure hs name (Or.inl rfl : id.MayBe .concrete)
  rcases s.reopen_cases id traits name with ⟨_, _, heq⟩ | ⟨t, ht, heq⟩
  · rw [heq]
    exact hensured
  · rw [heq]
    exact (h.rename hensured ht).update id (h.opened id _ traits)

theorem declare (h : Upheld D) (hs : s.Everywhere D) (id : TypeId) (declaration : Declaration) :
    (s.declare id declaration).2.Everywhere D := by
  have hlisted := h.listAll hs fun e (he : e ∈ declaration.listed) => Declaration.mayBe_of_mem_listed he
  rcases s.declare_cases id declaration with
    ⟨_, hfits, heq⟩ | ⟨_, _, _, heq⟩ | ⟨_, _, heq⟩
  · rw [heq]
    exact hlisted.update id (h.extended id _ declaration hfits)
  · rw [heq]
    exact hlisted
  · rw [heq]
    exact hs

theorem apply (h : Upheld D) (hs : s.Everywhere D) {o : Operation} (ho : ¬ o.isAmendment) :
    (o.apply s).Everywhere D := by
  cases o with
  | reopen id traits name => exact h.reopen hs id traits name
  | declare id declaration => exact h.declare hs id declaration
  | mention id => exact h.ensure hs _ (Or.inr (Or.inr rfl))
  | amend => exact absurd rfl ho

/-- As long as nothing is amended, it holds of the description of every type. -/
theorem built (h : Upheld D) (hs : s.Built) : s.Everywhere D := by
  obtain ⟨operations, ho, rfl⟩ := hs
  exact List.foldlRecOn _ _ h.builtIn fun _ hs o hm => h.apply hs (ho o hm)

/-- If amendments keep it too, it holds whatever a host program does. -/
theorem run (h : Upheld D)
    (ha : ∀ id d kind index (a : Amendment), D id d → D id (a.apply kind index d))
    (operations : List Operation) : (run operations).Everywhere D := by
  refine List.foldlRecOn _ _ h.builtIn fun s hs o _ => ?_
  cases o with
  | amend id kind index a => exact hs.update id fun hd => ha id _ kind index a hd
  | reopen | declare | mention => exact h.apply hs Bool.false_ne_true

/-- Constructors come with a declaration of their own, or with the class that is opened. -/
theorem of_constructors {P : Constructor → Prop}
    (hdeclared : ∀ (c : ConstructorDeclaration) id, P (c.constructor id)) :
    Upheld fun _ d => ∀ c ∈ d.constructors, P c where
  placeholder _ _ _ _ k hk := nomatch hk
  ofBuiltIn _ k hk := nomatch hk
  named _ _ _ hd := hd
  opened id d traits hd k hk := by
    rw [Description.opened_eq] at hk
    dsimp only at hk
    split_ifs at hk
    · rcases Description.mem_addConstructor hk with hold | rfl
      · exact hd k hold
      · exact hdeclared .default id
    · exact hd k hk
  extended id d declaration _ hd k hk := by
    cases declaration with
    | asInterface | asAbstract | superclass | interface | method | field => exact hd k hk
    | typeParameter p =>
      rw [Declaration.extend, Description.addTypeParameter_eq] at hk
      exact hd k hk
    | constructor c =>
      rcases Description.mem_addConstructor hk with hold | rfl
      · exact hd k hold
      · exact hdeclared c id

end Upheld

namespace Growing

variable {D : TypeId → Description → Prop} {s : Schema}

theorem grows (h : Growing D) {id : TypeId} {d d' : Description}
    (hd : Relation.ReflTransGen (Description.Growth id) d d') (hD : D id d) : D id d' := by
  induction hd with
  | refl => exact hD
  | tail _ hgrowth ih => exact h.growth id _ _ hgrowth ih

/-- Openings and declarations make descriptions grow. -/
theorem upheld (h : Growing D) : Upheld D where
  placeholder := h.placeholder
  ofBuiltIn := h.ofBuiltIn
  named id d name := h.growth id _ _ (.named d name)
  opened id d traits := h.grows (Description.grows_opened id traits d)
  extended id d _ hfits := h.growth id _ _ (.extend hfits d)

theorem built (h : Growing D) (hs : s.Built) : s.Everywhere D := h.upheld.built hs

/-- Methods come with a declaration of their own. -/
theorem of_methods {P : TypeId → Method → Prop}
    (hdeclared : ∀ (m : MethodDeclaration) id scope, m.fits → P id (m.method id scope)) :
    Growing fun id d => ∀ m ∈ d.methods, P id m where
  placeholder _ _ _ _ m hm := nomatch hm
  ofBuiltIn _ m hm := nomatch hm
  growth id d d' hgrowth hd m hm := by
    cases hgrowth with
    | named | asInterface | asAbstract | superclass | interface | field => exact hd m hm
    | typeParameter p => exact hd m (by rwa [Description.addTypeParameter_methods] at hm)
    | constructor c => exact hd m (by rwa [Description.addConstructor_methods] at hm)
    | method declaration hfits =>
      rcases List.mem_append.1 hm with hold | hnew
      · exact hd m hold
      · rw [List.mem_singleton.1 hnew]
        exact hdeclared declaration id d hfits

theorem of_fields {P : TypeId → Field → Prop}
    (hdeclared : ∀ (f : FieldDeclaration) id scope, P id (f.field id scope)) :
    Growing fun id d => ∀ f ∈ d.fields, P id f where
  placeholder _ _ _ _ f hf := nomatch hf
  ofBuiltIn _ f hf := nomatch hf
  growth id d d' hgrowth hd f hf := by
    cases hgrowth with
    | named | asInterface | asAbstract | superclass | interface | method => exact hd f hf
    | typeParameter p => exact hd f (by rwa [Description.addTypeParameter_fields] at hf)
    | constructor c => exact hd f (by rwa [Description.addConstructor_fields] at hf)
    | field declaration =>
      rcases List.mem_append.1 hf with hold | hnew
      · exact hd f hold
      · rw [List.mem_singleton.1 hnew]
        exact hdeclared declaration id d

end Growing

namespace Lasting

variable {D : TypeId → Description → Prop}

/-- Whatever a host program does, it holds of the description of every type. -/
theorem run (h : Lasting D) (operations : List Operation) : (run operations).Everywhere D :=
  h.upheld.run h.amended operations

/-- An amendment changes the methods one by one. -/
theorem of_methods {P : Method → Prop}
    (hdeclared : ∀ (m : MethodDeclaration) id scope, m.fits → P (m.method id scope))
    (hamended : ∀ (a : Amendment) m, P m → P (a.method m)) :
    Lasting fun _ d => ∀ m ∈ d.methods, P m where
  toGrowing := .of_methods hdeclared
  amended id d kind index a hd m hm := by
    cases kind with
    | field | constructor => exact hd m hm
    | method =>
      rcases exists_of_mem_modify hm with hold | ⟨g, hg, rfl⟩
      · exact hd m hold
      · exact hamended a g (hd g hg)

theorem of_fields {P : Field → Prop}
    (hdeclared : ∀ (f : FieldDeclaration) id scope, P (f.field id scope))
    (hamended : ∀ (a : Amendment) f, P f → P (a.field f)) :
    Lasting fun _ d => ∀ f ∈ d.fields, P f where
  toGrowing := .of_fields hdeclared
  amended id d kind index a hd f hf := by
    cases kind with
    | method | constructor => exact hd f hf
    | field =>
      rcases exists_of_mem_modify hf with hold | ⟨g, hg, rfl⟩
      · exact hd f hold
      · exact hamended a g (hd g hg)

end Lasting

/-- A type stays what it was taken for, unless it becomes an interface. -/
theorem category_lasting : Lasting fun id d => id.MayBe d.category where
  placeholder _ _ _ h := h
  ofBuiltIn _ := Or.inr (Or.inr rfl)
  growth id d d' hgrowth hd := by
    cases hgrowth with
    | asInterface => exact Or.inr (Or.inl rfl)
    | named | asAbstract | superclass | interface | method | field => exact hd
    | typeParameter p =>
      unfold Description.addTypeParameter
      split_ifs <;> exact hd
    | constructor c =>
      unfold Description.addConstructor
      split_ifs <;> exact hd
  amended id d kind index a hd := by cases kind <;> exact hd

def baseClass : TypeId := .described "Base" 0

def derivedClass : TypeId := .described "Derived" 1

def storeClass : TypeId := .described "Store" 2

/-- The derived class lies below the base, and the base below all others. -/
def classRank (id : TypeId) : Nat :=
  if id = derivedClass then 2 else if id = baseClass then 1 else 0

/-- Values that can be assigned but not copied. -/
def brittle : RecordType := { name := "Brittle", onCopy := some (.runtime "copy blown") }

/-- A class whose constant hides a variable of its superclass. -/
def shadowing : List Operation := [
  .reopen baseClass {} "Base",
  .declare baseClass (.field { name := "x", type := .int, storage := .slot "x" }),
  .declare baseClass (.field { name := "note", type := .record brittle, storage := .slot "note" }),
  .reopen derivedClass {} "Derived",
  .declare derivedClass (.superclass { base := some baseClass, upcast := some "Derived>Base" }),
  .declare derivedClass (.field
    { name := "x", type := .int, storage := .fixed (.int 7), isConstant := true })]

def shadowed : Schema := run shadowing

theorem shadowed_acyclic : shadowed.Acyclic := acyclic_of_rank classRank (by decide)

end Schema
end Introspect
