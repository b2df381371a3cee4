import Introspect.Proofs.Scripts

/-! What an operation on one type leaves alone. Every other type keeps its description and its name, and what
is new beside the type is a bare placeholder. An operation that fails leaves the type itself alone too. -/
namespace Introspect.Schema

/-- The type that is opened, added to or amended. A mention is about no type. -/
def Operation.owner? : Operation → Option TypeId
  | reopen id _ _ | declare id _ | amend id _ _ _ => some id
  | mention _ => none

/-- What success makes of the description of the owner. Only an opening makes one for a type that is new. -/
def Operation.result : Operation → Option Description → Option Description
  | reopen id traits name, former => some (openedAs id traits name former)
  | declare id declaration, former => former.map (declaration.extend id)
  | amend _ kind index a, former => former.map (a.apply kind index)
  | mention _, former => former

/-- Nothing changes but the description and the names of the owner, where there is one. New types are
placeholders without members, links, parameters or constructors, and new names are those of new types. -/
structure Confined (owner? : Option TypeId) (s t : Schema) : Prop where
  types : ∀ id, owner? ≠ some id → s.contains id → t.types.get? id = s.types.get? id
  placeholders : ∀ id, owner? ≠ some id → ¬ s.contains id → t.contains id →
    ∃ name category, t.types.get? id = some (.placeholder name category)
  names : ∀ n id, owner? ≠ some id → s.find? n = some id → t.find? n = some id
  new_names : ∀ n id, owner? ≠ some id → t.find? n = some id → s.find? n = some id ∨ ¬ s.contains id

variable {owner? : Option TypeId} {s t u : Schema} {id : TypeId}

namespace Confined

theorem refl (s : Schema) : Confined owner? s s where
  types _ _ _ := rfl
  placeholders _ _ hnew hc := absurd hc hnew
  names _ _ _ hn := hn
  new_names _ _ _ hn := Or.inl hn

theorem contains (h : Confined owner? s t) (hid : owner? ≠ some id) (hc : s.contains id) :
    t.contains id := by
  unfold Schema.contains Table.contains at hc ⊢
  rwa [h.types id hid hc]

theorem trans (hst : Confined owner? s t) (htu : Confined owner? t u) : Confined owner? s u where
  types id hid hc := (htu.types id hid (hst.contains hid hc)).trans (hst.types id hid hc)
  placeholders id hid hnew hc := by
    by_cases ht : t.contains id
    · rw [htu.types id hid ht]
      exact hst.placeholders id hid hnew ht
    · exact htu.placeholders id hid ht hc
  names n id hid hn := htu.names n id hid (hst.names n id hid hn)
  new_names n id hid hn := by
    rcases htu.new_names n id hid hn with hold | hnew
    · exact hst.new_names n id hid hold
    · exact Or.inr fun hc => hnew (hst.contains hid hc)

/-- Where no type at all changes, the owner does not change. -/
theorem of_none (h : Confined none s t) : Confined owner? s t where
  types id _ := h.types id (Option.some_ne_none id).symm
  placeholders id _ := h.placeholders id (Option.some_ne_none id).symm
  names n id _ := h.names n id (Option.some_ne_none id).symm
  new_names n id _ := h.new_names n id (Option.some_ne_none id).symm

theorem ensure (s : Schema) (id : TypeId) (name : String) (category : Category) :
    Confined none s (s.ensure id name category) where
  types id' _ hc := by
    unfold Schema.ensure
    split_ifs with hid
    · rfl
    · exact Table.get?_insert_of_ne _ _ fun heq => hid (heq ▸ hc)
  placeholders id' _ hnew hc := by
    unfold Schema.ensure at hc ⊢
    split_ifs at hc ⊢ with hid
    · exact absurd hc hnew
    · refine ⟨name, category, ?_⟩
      rcases (contains_ensure s id id' name category).1 (by rwa [Schema.ensure, if_neg hid]) with rfl | hold
      · exact Table.get?_insert_self _ _ _
      · exact absurd hold hnew
  names n id' _ hn := by
    rw [find?_ensure, if_neg fun hnew => ?_]
    · exact hn
    · rw [← hnew.1, hn] at hnew
      cases hnew.2.1
  new_names n id' _ hn := by
    rw [find?_ensure] at hn
    split_ifs at hn with hnew
    · exact Or.inr (Option.some.inj hn ▸ hnew.2.2)
    · exact Or.inl hn

theorem listAll (s : Schema) (types : List (TypeId × Category)) : Confined none s (s.listAll types) := by
  induction types generalizing s with
  | nil => exact refl s
  | cons e rest ih => exact (ensure s e.1 _ e.2).trans (ih _)

theorem update (s : Schema) (id : TypeId) (f : Description → Description) :
    Confined (some id) s (s.update id f) where
  types id' hid _ := by
    rw [Schema.update, Table.get?_modify, if_neg fun heq => hid (congrArg some heq.symm)]
  placeholders id' _ hnew hc := absurd (by rwa [contains_update] at hc) hnew
  names _ _ _ hn := hn
  new_names _ _ _ hn := Or.inl hn

/-- Opening a class takes no name away from another type. -/
theorem reopen (h : s.Indexed) {traits : ClassTraits} {name : String}
    (hok : (s.reopen id traits name).1 = .ok ()) :
    Confined (some id) s (s.reopen id traits name).2 := by
  have htypes := h.types_reopen hok
  have hothers (id' : TypeId) (hid : some id ≠ some id') :
      (s.reopen id traits name).2.types.get? id' = s.types.get? id' := by
    rw [htypes, Table.get?_insert_of_ne _ _ fun heq => hid (congrArg some heq.symm)]
  refine ⟨fun id' hid _ => hothers id' hid, fun id' hid hnew hc => ?_, fun n id' hid hn => ?_,
    fun n id' hid hn => ?_⟩
  · unfold Schema.contains Table.contains at hnew hc
    rw [hothers id' hid] at hc
    exact absurd hc hnew
  · have hne : s.find? n ≠ some id := fun hown => hid (hown.symm.trans hn)
    have hother : n ≠ name := by
      rintro rfl
      rcases other?_eq_none_iff.1 ((reopen_ok_iff ..).1 hok) with hfree | hown
      · rw [hfree] at hn
        cases hn
      · exact hne hown
    rw [h.find?_reopen hok, if_neg hother, other?, if_neg hne, hn]
  · left
    rw [h.find?_reopen hok] at hn
    unfold other? at hn
    split_ifs at hn
    · exact absurd hn hid
    · exact hn

end Confined

/-- An operation that fails has at most listed new types as placeholders. -/
theorem confined_of_error (s : Schema) (o : Operation) (h : o.outcome s ≠ .ok ()) :
    Confined none s (o.apply s) := by
  cases o with
  | mention | amend => exact absurd rfl h
  | reopen id traits name =>
    rcases s.reopen_cases id traits name with ⟨f, _, heq⟩ | ⟨t, _, heq⟩
    · rw [Operation.apply, heq]
      exact .ensure s id name .concrete
    · exact absurd (congrArg Prod.fst heq) h
  | declare id declaration =>
    rw [Operation.apply]
    rcases s.declare_cases id declaration with ⟨_, _, heq⟩ | ⟨_, _, _, heq⟩ | ⟨_, _, heq⟩
    · exact absurd (congrArg Prod.fst heq) h
    · rw [heq]
      exact .listAll s _
    · rw [heq]
      exact .refl s

/-- An operation that succeeds makes of its owner what it says, and of no other type anything. -/
theorem Indexed.confined_of_ok (h : s.Indexed) (o : Operation) (hok : o.outcome s = .ok ()) :
    Confined o.owner? s (o.apply s) ∧
      ∀ id, o.owner? = some id → (o.apply s).types.get? id = o.result (s.types.get? id) := by
  cases o with
  | mention id => exact ⟨.ensure s id _ _, fun _ howner => nomatch howner⟩
  | amend id kind index a =>
    refine ⟨.update s id _, fun id' howner => ?_⟩
    cases howner
    exact (Table.get?_modify ..).trans (if_pos rfl)
  | reopen id traits name =>
    refine ⟨.reopen h hok, fun id' howner => ?_⟩
    cases howner
    rw [Operation.apply, h.types_reopen hok]
    exact Table.get?_insert_self ..
  | declare id declaration =>
    rw [Operation.apply]
    rcases s.declare_cases id declaration with ⟨hc, _, heq⟩ | ⟨_, _, f, heq⟩ | ⟨_, f, heq⟩
    · rw [heq]
      have hlisted : Confined none s (s.listAll declaration.listed) := .listAll s _
      refine ⟨hlisted.of_none.trans (.update _ id _), fun id' howner => ?_⟩
      cases howner
      have hsame := hlisted.types id (Option.some_ne_none id).symm hc
      rw [Schema.update, Table.get?_modify, if_pos rfl, hsame]
      rfl
    · exact absurd (hok.symm.trans (congrArg Prod.fst heq)) (by simp)
    · exact absurd (hok.symm.trans (congrArg Prod.fst heq)) (by simp)

theorem Indexed.confined (h : s.Indexed) (o : Operation) : Confined o.owner? s (o.apply s) := by
  by_cases hok : o.outcome s = .ok ()
  · exact (h.confined_of_ok o hok).1
  · exact (confined_of_error s o hok).of_none

/-- Only the owner can be described otherwise than before, apart from new types. -/
theorem Confined.describe_cases (h : Confined owner? s t) (hid : owner? ≠ some id) :
    t.describe id = s.describe id ∨ ∃ name category, t.describe id = .placeholder name category := by
  unfold describe
  by_cases hc : s.contains id
  · left
    rw [h.types id hid hc]
  · right
    cases ht : t.types.get? id with
    | none => exact ⟨_, _, rfl⟩
    | some d =>
      have hlisted : t.contains id := by simp [Schema.contains, Table.contains, ht]
      obtain ⟨name, category, hplaceholder⟩ := h.placeholders id hid hc hlisted
      exact ⟨name, category, by rw [Option.getD_some, ← Option.some.inj (ht.symm.trans hplaceholder)]⟩

/-- A type gets its supertypes only by what is declared of it. -/
theorem Confined.supertypes_eq_nil (h : Confined owner? s t) (hid : owner? ≠ some id)
    (hs : s.supertypes id = []) : t.supertypes id = [] := by
  unfold supertypes at hs ⊢
  rcases h.describe_cases hid with hsame | ⟨name, category, hplaceholder⟩
  · rwa [hsame]
  · rw [hplaceholder]
    rfl

theorem supertypes_run_eq_nil {operations : List Operation}
    (h : ∀ o ∈ operations, o.owner? ≠ some id) : (run operations).supertypes id = [] := by
  have hbuiltIn : builtIn.supertypes id = [] :=
    describe_of_listed (P := fun d => d.supertypes = []) (fun _ _ => rfl) (by decide) id
  refine (List.foldlRecOn (motive := fun s : Schema => s.Indexed ∧ s.supertypes id = []) operations _
    ⟨.builtIn, hbuiltIn⟩ fun s hs o ho => ?_).2
  exact ⟨hs.1.apply o, (hs.1.confined o).supertypes_eq_nil (h o ho) hs.2⟩

theorem supertypes_eq_nil_iff : s.supertypes id = [] ↔ ∀ d ∈ s.types.get? id, d.supertypes = [] := by
  unfold supertypes describe
  cases s.types.get? id with
  | none => exact ⟨fun _ => nofun, fun _ => rfl⟩
  | some d => simp

/-- What a builder does with a built-in type leaves it without supertypes. -/
theorem Operation.supertypes_result {o : Operation} {type : BuiltIn} (ho : ¬ o.isAmendment)
    (hlink : ¬ o.linksBuiltIn) (howner : o.owner? = some (.builtIn type)) {former : Option Description}
    (hformer : ∀ d ∈ former, d.supertypes = []) : ∀ d ∈ o.result former, d.supertypes = [] := by
  cases o with
  | mention => exact hformer
  | amend => exact absurd rfl ho
  | reopen id traits name =>
    rintro _ ⟨⟩
    rw [openedAs, Description.opened_eq]
    cases former with
    | none => rfl
    | some d => exact hformer d rfl
  | declare id declaration =>
    cases howner
    rintro _ hd
    obtain ⟨d, rfl, rfl⟩ := Option.map_eq_some_iff.1 hd
    have hnone := hformer d rfl
    cases declaration with
    | asInterface | asAbstract | method | field => exact hnone
    | superclass | interface => exact absurd rfl hlink
    | typeParameter p => rwa [Declaration.extend, Description.addTypeParameter_eq]
    | constructor c => rwa [Declaration.extend, Description.addConstructor_eq]

/-- Built-in types derive from nothing, the root among them. -/
theorem BuilderMade.supertypes_builtIn (h : s.BuilderMade) (type : BuiltIn) :
    s.supertypes (.builtIn type) = [] := by
  obtain ⟨operations, hbuilding, rfl⟩ := h
  have hnone : builtIn.supertypes (.builtIn type) = [] := by cases type <;> rfl
  refine (List.foldlRecOn (motive := fun s : Schema => s.Indexed ∧ s.supertypes (.builtIn type) = [])
    operations _ ⟨.builtIn, hnone⟩ fun s ⟨hindexed, hs⟩ o hm => ⟨hindexed.apply o, ?_⟩).2
  by_cases howner : o.owner? = some (.builtIn type)
  · by_cases hok : o.outcome s = .ok ()
    · obtain ⟨ho, hlink⟩ := hbuilding o hm
      rw [supertypes_eq_nil_iff, (hindexed.confined_of_ok o hok).2 _ howner]
      exact Operation.supertypes_result ho hlink howner (supertypes_eq_nil_iff.1 hs)
    · exact (confined_of_error s o hok).supertypes_eq_nil (Option.some_ne_none _).symm hs
  · exact (hindexed.confined o).supertypes_eq_nil howner hs

/-- In any state, an operation changes the description and the names of the one type that it is about and
leaves those of all other types as they are. The types that it lists on the way are placeholders. When it
fails, the type itself is left as it was, and is at most a placeholder if it was not listed. -/
theorem operation_confined (operations : List Operation) (o : Operation) :
    let s := run operations
    let t := o.apply s
    Confined o.owner? s t ∧ (o.outcome s ≠ .ok () → Confined none s t) ∧
      (o.outcome s = .ok () → ∀ id, o.owner? = some id →
        t.types.get? id = o.result (s.types.get? id)) := by
  intro s t
  have hs : s.Indexed := indexed_run operations
  exact ⟨hs.confined o, confined_of_error s o, fun hok => (hs.confined_of_ok o hok).2⟩

/-- A method is refused for its signature when the type of its result is listed already. -/
example :
    let s := run [.reopen baseClass {} "Base"]
    let o : Operation := .declare baseClass (.method
      { name := "m", result := some (.record .ref), declaredParams := [.var "T"], body := .nothing })
    o.outcome s = .error (.signatureLength "m" "Base") ∧
      (o.apply s).types.keys = s.types.keys ++ [.record "Ref"] := by decide

end Introspect.Schema
