import Introspect.Proofs.NameIndex

/-! Classes that are opened again. Of several attempts to open a class only the last one that succeeds
leaves a trace. -/
namespace Introspect

namespace Description

variable (d : Description) (id : TypeId) (traits : ClassTraits)

/-- A name given later takes the place of one given before. -/
theorem opened_withName (name : String) :
    { d.opened id traits with name } = { d with name }.opened id traits := by
  simp only [opened_eq, addConstructor_eq]
  rfl

/-- Afterwards there is a constructor without parameters, and a second one is not added. -/
theorem addConstructor_addConstructor {c : Constructor} (hc : c.arity = 0) :
    (d.addConstructor c).addConstructor c = d.addConstructor c := by
  have hsome : (d.addConstructor c).defaultConstructor?.isSome := by
    unfold addConstructor
    split_ifs with h
    · exact h.2
    · simp [defaultConstructor?, hc]
  exact if_pos ⟨hc, hsome⟩

/-- A class is opened twice as if it had been opened once. -/
theorem opened_opened : (d.opened id traits).opened id traits = d.opened id traits := by
  have hcommutes (e : Description) (c : Constructor) :
      { e.addConstructor c with isAbstract := true } =
        { e with isAbstract := true }.addConstructor c := by
    simp only [addConstructor_eq]
    rfl
  unfold opened
  dsimp only
  split_ifs
  · rw [hcommutes, addConstructor_addConstructor _ rfl]
  · exact addConstructor_addConstructor d rfl
  · rfl
  · rfl

end Description

namespace Schema

variable {s : Schema} {id : TypeId} {traits : ClassTraits} {name : String}

/-- How a class is described once it is opened under a name, if it is described already or is new. -/
def openedAs (id : TypeId) (traits : ClassTraits) (name : String) (former : Option Description) :
    Description :=
  { former.getD (.placeholder name .concrete) with name }.opened id traits

private theorem modify_ensure (s : Schema) (id : TypeId) (name : String) (category : Category)
    (f : Description → Description) :
    (s.ensure id name category).types.modify id f =
      s.types.insert id (f ((s.types.get? id).getD (.placeholder name category))) := by
  unfold ensure contains Table.contains
  cases h : s.types.get? id with
  | none => simp
  | some d => simp [Table.modify, h]

/-- All that an opening leaves in the index by identity is the description of the class. -/
theorem Indexed.types_reopen (h : s.Indexed) (hok : (s.reopen id traits name).1 = .ok ()) :
    (s.reopen id traits name).2.types =
      s.types.insert id (openedAs id traits name (s.types.get? id)) := by
  rcases s.reopen_cases id traits name with ⟨f, _, heq⟩ | ⟨t, ht, heq⟩
  · rw [heq] at hok
    cases hok
  · have hrenamed := ((h.ensure id name .concrete).renamed ht).types
    rw [heq, Schema.update, hrenamed, Schema.update, modify_ensure, Table.modify_insert]
    rfl

/-- An attempt to open a class, successful or not, leaves a description that a later opening replaces. -/
theorem Indexed.insert_openedAs (h : s.Indexed) (a b : String) :
    let tried := (s.reopen id traits a).2
    tried.types.insert id (openedAs id traits b (tried.types.get? id)) =
      s.types.insert id (openedAs id traits b (s.types.get? id)) := by
  intro tried
  by_cases hok : (s.reopen id traits a).1 = .ok ()
  · have htypes : tried.types = s.types.insert id (openedAs id traits a (s.types.get? id)) :=
      h.types_reopen hok
    have hopened : openedAs id traits b (some (openedAs id traits a (s.types.get? id))) =
        openedAs id traits b (s.types.get? id) := by
      simp only [openedAs, Option.getD_some, Description.opened_withName, Description.opened_opened]
      cases s.types.get? id <;> rfl
    rw [htypes, Table.get?_insert_self, Table.insert_insert, hopened]
  · have htypes : tried.types = (s.ensure id a .concrete).types := by
      rcases s.reopen_cases id traits a with ⟨f, _, heq⟩ | ⟨t, _, heq⟩
      · simp only [tried, heq]
      · exact absurd (by rw [heq]) hok
    rw [htypes]
    unfold Schema.ensure contains Table.contains
    cases hid : s.types.get? id with
    | some d => simp [hid]
    | none =>
      have hopened : openedAs id traits b (some (.placeholder a .concrete)) =
          openedAs id traits b none := rfl
      simp [hopened]

/-- An attempt to open a class leaves the names of all others. -/
theorem Indexed.other?_reopen (h : s.Indexed) (a n : String) :
    (s.reopen id traits a).2.other? id n = s.other? id n := by
  unfold other?
  by_cases hok : (s.reopen id traits a).1 = .ok ()
  · rw [h.find?_reopen hok]
    by_cases hn : n = a
    · have hfree := (reopen_ok_iff ..).1 hok
      rw [if_pos hn, if_pos rfl, hn]
      exact hfree.symm
    · rw [if_neg hn]
      unfold other?
      split_ifs <;> simp_all
  · rw [Indexed.find?_reopen_of_error hok]

/-- Only the last opening counts. If a class can be opened under a name, it still can be after an attempt
to open it under any name, whether this succeeds or not, and the indices then are what they are without
the attempt. -/
theorem reopen_after_attempt (operations : List Operation) (id : TypeId) (traits : ClassTraits)
    (a b : String) (hok : ((run operations).reopen id traits b).1 = .ok ()) :
    let s := run operations
    let tried := (s.reopen id traits a).2
    (tried.reopen id traits b).1 = .ok () ∧
      (tried.reopen id traits b).2.types = (s.reopen id traits b).2.types ∧
      (∀ n, (tried.reopen id traits b).2.find? n = (s.reopen id traits b).2.find? n) ∧
      (tried.reopen id traits b).2.names.keys.Perm (s.reopen id traits b).2.names.keys := by
  intro s tried
  have hs : s.Indexed := indexed_run operations
  have htried : tried.Indexed := hs.reopen id traits a
  have hlast : (tried.reopen id traits b).1 = .ok () := by
    rw [reopen_ok_iff, hs.other?_reopen, ← reopen_ok_iff]
    exact hok
  have hfind (n : String) :
      (tried.reopen id traits b).2.find? n = (s.reopen id traits b).2.find? n := by
    rw [htried.find?_reopen hlast, hs.find?_reopen hok, hs.other?_reopen]
  refine ⟨hlast, ?_, hfind, ?_⟩
  · rw [htried.types_reopen hlast, hs.types_reopen hok, hs.insert_openedAs]
  · refine (List.perm_ext_iff_of_nodup (htried.reopen id traits b).names_nodup
      (hs.reopen id traits b).names_nodup).2 fun n => ?_
    rw [Table.mem_keys_iff, Table.mem_keys_iff]
    exact iff_of_eq (congrArg (fun owner : Option TypeId => owner.isSome = true) (hfind n))

/-- A new class is refused the name of another, and then opened under a free one. -/
theorem reopen_after_refusal :
    let s := run [.reopen baseClass {} "Base"]
    let tried := (s.reopen derivedClass {} "Base").2
    (s.reopen derivedClass {} "Base").1 = .error (.nameTaken "Base") ∧ tried.contains derivedClass ∧
      (s.reopen derivedClass {} "Derived").1 = .ok () ∧
      (tried.reopen derivedClass {} "Derived").1 = .ok () ∧
      (tried.reopen derivedClass {} "Derived").2.types = (s.reopen derivedClass {} "Derived").2.types := by
  intro s tried
  have hok : (s.reopen derivedClass {} "Derived").1 = .ok () := rfl
  obtain ⟨hlast, htypes, _, _⟩ :=
    reopen_after_attempt [.reopen baseClass {} "Base"] derivedClass {} "Base" "Derived" hok
  exact ⟨rfl, rfl, hok, hlast, htypes⟩

end Schema
end Introspect
