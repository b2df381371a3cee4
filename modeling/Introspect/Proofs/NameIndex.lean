import Introspect.Proofs.Runs

/-! The two indices of a schema, by identity and by name, over any run of operations. A type once listed
stays listed and its description develops; a name belongs to one type until that type takes another. -/
namespace Introspect

/-- What can become of the description of a type by declarations and amendments. -/
def Description.Develops (id : TypeId) : Description → Description → Prop :=
  Relation.ReflTransGen fun d d' =>
    Growth id d d' ∨ ∃ kind index, ∃ a : Amendment, d' = a.apply kind index d

theorem Description.develops_of_grows {id : TypeId} {d d' : Description}
    (h : Relation.ReflTransGen (Growth id) d d') : Develops id d d' :=
  Relation.ReflTransGen.mono (fun _ _ => Or.inl) _ _ h

namespace Schema

/-- The indices agree: each name is that of the listed type it stands for. -/
structure Indexed (s : Schema) : Prop where
  types_nodup : s.types.keys.Nodup
  names_nodup : s.names.keys.Nodup
  listed : ∀ n id, s.find? n = some id → s.contains id
  named : ∀ n id, s.find? n = some id → s.nameOf id = n

/-- Later the types are still listed, in their places, and their descriptions have developed. -/
structure Continues (s t : Schema) : Prop where
  keys : s.types.keys <+: t.types.keys
  develops : ∀ id, s.contains id → Description.Develops id (s.describe id) (t.describe id)

variable {s t u : Schema} {id : TypeId} {name : String}

theorem nameOf_ensure (s : Schema) (id id' : TypeId) (name : String) (category : Category) :
    (s.ensure id name category).nameOf id' =
      if id' = id ∧ ¬ s.contains id then name else s.nameOf id' := by
  unfold nameOf
  rw [describe_ensure]
  split_ifs <;> rfl

theorem nameOf_update {f : Description → Description} (hf : ∀ d, (f d).name = d.name) (id' : TypeId) :
    (s.update id f).nameOf id' = s.nameOf id' := by
  unfold nameOf
  rw [describe_update]
  split_ifs with hid
  · rw [hf, hid.1]
  · rfl

theorem keys_update (s : Schema) (id : TypeId) (f : Description → Description) :
    (s.update id f).types.keys = s.types.keys :=
  Table.keys_modify ..

namespace Continues

theorem refl (s : Schema) : s.Continues s := ⟨List.prefix_rfl, fun _ _ => .refl⟩

theorem contains (h : s.Continues t) (hc : s.contains id) : t.contains id :=
  (Table.mem_keys_iff _ _).1 (h.keys.subset ((Table.mem_keys_iff _ _).2 hc))

theorem size_le (h : s.Continues t) : s.size ≤ t.size := by
  simpa [Table.keys, size, Table.size] using h.keys.length_le

theorem trans (hst : s.Continues t) (htu : t.Continues u) : s.Continues u where
  keys := hst.keys.trans htu.keys
  develops id hc := (hst.develops id hc).trans (htu.develops id (hst.contains hc))

theorem ensure (s : Schema) (id : TypeId) (name : String) (category : Category) :
    s.Continues (s.ensure id name category) where
  keys := by
    unfold Schema.ensure
    split_ifs
    · exact List.prefix_rfl
    · rw [Table.keys_insert]
      split_ifs
      · exact List.prefix_rfl
      · exact List.prefix_append _ _
  develops id' hc := by
    rw [describe_ensure, if_neg fun h => h.2 (h.1 ▸ hc)]
    exact .refl

theorem update {f : Description → Description}
    (hf : Description.Develops id (s.describe id) (f (s.describe id))) :
    s.Continues (s.update id f) where
  keys := (keys_update s id f).symm ▸ List.prefix_rfl
  develops id' _ := by
    rw [describe_update]
    split_ifs with hid
    · exact hid.1 ▸ hf
    · exact .refl

theorem listAll (s : Schema) (types : List (TypeId × Category)) : s.Continues (s.listAll types) := by
  induction types generalizing s with
  | nil => exact refl s
  | cons e rest ih => exact (ensure s e.1 _ e.2).trans (ih _)

end Continues

namespace Indexed

/-- No type has two names. -/
theorem unique (h : s.Indexed) {n n' : String} (hn : s.find? n = some id)
    (hn' : s.find? n' = some id) : n = n' :=
  (h.named n id hn).symm.trans (h.named n' id hn')

theorem builtIn : Schema.builtIn.Indexed := by
  have hentries : ∀ e ∈ Schema.builtIn.names.entries,
      Schema.builtIn.contains e.2 ∧ Schema.builtIn.nameOf e.2 = e.1 := by decide
  refine ⟨by decide, by decide, fun n id hn => ?_, fun n id hn => ?_⟩
  · exact (hentries _ (Table.mem_entries_of_get? hn)).1
  · exact (hentries _ (Table.mem_entries_of_get? hn)).2

theorem ensure (h : s.Indexed) (id : TypeId) (name : String) (category : Category) :
    (s.ensure id name category).Indexed where
  types_nodup := by
    unfold Schema.ensure
    split_ifs
    · exact h.types_nodup
    · exact Table.nodup_keys_insert h.types_nodup _ _
  names_nodup := by
    unfold Schema.ensure Table.insertIfNew
    split_ifs
    · exact h.names_nodup
    · exact h.names_nodup
    · exact Table.nodup_keys_insert h.names_nodup _ _
  listed n id' hn := by
    rw [find?_ensure] at hn
    rw [contains_ensure]
    split_ifs at hn
    · exact Or.inl (Option.some.inj hn).symm
    · exact Or.inr (h.listed n id' hn)
  named n id' hn := by
    rw [find?_ensure] at hn
    rw [nameOf_ensure]
    split_ifs at hn with hnew
    · obtain rfl := Option.some.inj hn
      rw [if_pos ⟨rfl, hnew.2.2⟩, hnew.1]
    · rw [if_neg fun hid => hid.2 (hid.1 ▸ h.listed n id' hn)]
      exact h.named n id' hn

theorem update (h : s.Indexed) {f : Description → Description} (hf : ∀ d, (f d).name = d.name)
    (id : TypeId) : (s.update id f).Indexed where
  types_nodup := by
    rw [keys_update]
    exact h.types_nodup
  names_nodup := h.names_nodup
  listed n id' hn := by
    rw [contains_update]
    exact h.listed n id' hn
  named n id' hn := by
    rw [nameOf_update hf]
    exact h.named n id' hn

theorem listAll (h : s.Indexed) (types : List (TypeId × Category)) : (s.listAll types).Indexed := by
  induction types generalizing s with
  | nil => exact h
  | cons e rest ih => exact ih (h.ensure e.1 _ e.2)

end Indexed

/-- The type that has a name, unless it is the given one. -/
def other? (s : Schema) (id : TypeId) (name : String) : Option TypeId :=
  if s.find? name = some id then none else s.find? name

theorem other?_eq_none_iff : s.other? id name = none ↔ s.find? name = none ∨ s.find? name = some id := by
  unfold other?
  split_ifs with h <;> simp [h]

/-- Afterwards the type is found under the name, and under no other. -/
structure Renamed (s : Schema) (id : TypeId) (name : String) (t : Schema) : Prop where
  types : t.types = (s.update id ({ · with name })).types
  names_nodup : t.names.keys.Nodup
  find?_eq : ∀ n, t.find? n = if n = name then some id else s.other? id n

/-- A type that has the name already keeps its description. -/
private theorem update_name_of_named (h : s.Indexed) (hown : s.find? name = some id) :
    s.update id ({ · with name }) = s := by
  obtain ⟨d, hd⟩ := Option.isSome_iff_exists.1 (h.listed name id hown)
  have hname : d.name = name := by
    have hnamed := h.named name id hown
    rwa [nameOf, describe, hd] at hnamed
  have hsame : { d with name } = d := by rw [← hname]
  unfold update Table.modify
  rw [hd]
  dsimp only
  rw [hsame, Table.insert_of_get? hd]

theorem Indexed.renamed (h : s.Indexed) (ht : s.rename id name = .ok t) : s.Renamed id name t := by
  rcases s.rename_cases id name with ⟨_, _, _, herror⟩ | ⟨hown, hok⟩ | ⟨_, hok⟩
  · rw [herror] at ht
    cases ht
  · rw [hok] at ht
    cases ht
    refine ⟨by rw [update_name_of_named h hown], h.names_nodup, fun n => ?_⟩
    unfold other?
    split_ifs with hn hown'
    · rw [hn, hown]
    · exact absurd (h.unique hown' hown) hn
    · rfl
  · rw [hok] at ht
    cases ht
    refine ⟨rfl, ?_, fun n => ?_⟩
    · dsimp only
      split_ifs
      · exact Table.nodup_keys_insert (Table.nodup_keys_erase h.names_nodup _) _ _
      · exact Table.nodup_keys_insert h.names_nodup _ _
    · -- The only name that the type can have had is the one in its description.
      have hformer : s.find? n = some id ↔ s.find? (s.nameOf id) = some id ∧ n = s.nameOf id := by
        constructor
        · intro hn
          have heq := h.named n id hn
          exact ⟨heq ▸ hn, heq.symm⟩
        · intro hn
          exact hn.2 ▸ hn.1
      have hnames : (if s.find? (s.nameOf id) = some id then s.names.erase (s.nameOf id)
          else s.names).get? n = s.other? id n := by
        unfold other?
        by_cases hold : s.find? (s.nameOf id) = some id
        · simp only [hformer, hold, true_and, if_true, Table.get?_erase]
          rfl
        · simp only [hformer, hold, false_and, if_false]
          rfl
      rw [find?, Table.get?_insert, hnames]

namespace Renamed

theorem describe_eq (h : s.Renamed id name t) (id' : TypeId) :
    t.describe id' = (s.update id ({ · with name })).describe id' := by
  unfold describe
  rw [h.types]

theorem contains_iff (h : s.Renamed id name t) (id' : TypeId) : t.contains id' = s.contains id' := by
  rw [← contains_update s id id' ({ · with name }), contains, h.types]
  rfl

theorem indexed (h : s.Renamed id name t) (hs : s.Indexed) (hc : s.contains id) : t.Indexed where
  types_nodup := by
    rw [h.types, keys_update]
    exact hs.types_nodup
  names_nodup := h.names_nodup
  listed n id' hn := by
    rw [h.find?_eq] at hn
    rw [h.contains_iff]
    unfold other? at hn
    split_ifs at hn
    · exact Option.some.inj hn ▸ hc
    · exact hs.listed n id' hn
  named n id' hn := by
    rw [h.find?_eq] at hn
    rw [nameOf, h.describe_eq, describe_update]
    unfold other? at hn
    split_ifs at hn with hname hown
    · rw [if_pos ⟨(Option.some.inj hn).symm, hc⟩, hname]
    · rw [if_neg fun hid : id' = id ∧ s.contains id => hown (hid.1 ▸ hn)]
      exact hs.named n id' hn

theorem continues (h : s.Renamed id name t) : s.Continues t where
  keys := by
    have hkeys : t.types.keys = s.types.keys := by rw [h.types, keys_update]
    exact hkeys ▸ List.prefix_rfl
  develops id' _ := by
    rw [h.describe_eq, describe_update]
    by_cases hid : id' = id ∧ s.contains id
    · rw [if_pos hid, hid.1]
      exact .single (Or.inl (.named _ name))
    · rw [if_neg hid]
      exact .refl

end Renamed

/-- A class can be opened under any name that no other type has. -/
theorem reopen_ok_iff (s : Schema) (id : TypeId) (traits : ClassTraits) (name : String) :
    (s.reopen id traits name).1 = .ok () ↔ s.other? id name = none := by
  have hensured : (s.ensure id name .concrete).find? name =
      if s.find? name = none ∧ ¬ s.contains id then some id else s.find? name := by
    rw [find?_ensure]
    simp
  have hok : (s.reopen id traits name).1 = .ok () ↔
      ∃ t, (s.ensure id name .concrete).rename id name = .ok t := by
    rcases s.reopen_cases id traits name with ⟨f, hf, heq⟩ | ⟨t, ht, heq⟩ <;> simp [*]
  rw [hok, other?_eq_none_iff]
  rcases (s.ensure id name .concrete).rename_cases id name with
    ⟨owner, hfound, hother, heq⟩ | ⟨hfound, heq⟩ | ⟨hfound, heq⟩
  · rw [hensured] at hfound
    split_ifs at hfound
    · exact absurd (Option.some.inj hfound).symm hother
    · simp [heq, hfound, hother]
  · rw [hensured] at hfound
    split_ifs at hfound with hnew
    · simp [heq, hnew.1]
    · simp [heq, hfound]
  · rw [hensured] at hfound
    split_ifs at hfound
    simp [heq, hfound]

namespace Indexed

/-- Opening a class under a name gives the class this name alone. -/
theorem find?_reopen (h : s.Indexed) {traits : ClassTraits}
    (hok : (s.reopen id traits name).1 = .ok ()) (n : String) :
    (s.reopen id traits name).2.find? n = if n = name then some id else s.other? id n := by
  rcases s.reopen_cases id traits name with ⟨f, _, heq⟩ | ⟨t, ht, heq⟩
  · rw [heq] at hok
    cases hok
  · have hrenamed := (h.ensure id name .concrete).renamed ht
    rw [heq, find?_update, hrenamed.find?_eq]
    refine ite_congr rfl (fun _ => rfl) fun hn => ?_
    have hsame : (s.ensure id name .concrete).find? n = s.find? n := by
      rw [find?_ensure, if_neg fun hnew => hn hnew.1]
    rw [other?, hsame]
    rfl

/-- A name that is refused leaves the name index as it was. -/
theorem find?_reopen_of_error {traits : ClassTraits} (hne : (s.reopen id traits name).1 ≠ .ok ())
    (n : String) : (s.reopen id traits name).2.find? n = s.find? n := by
  rcases s.reopen_cases id traits name with ⟨f, _, heq⟩ | ⟨t, _, heq⟩
  · have htaken : ¬ s.find? name = none :=
      fun hnone => hne ((reopen_ok_iff ..).2 (other?_eq_none_iff.2 (Or.inl hnone)))
    rw [heq, find?_ensure, if_neg fun hnew => htaken hnew.2.1]
  · exact absurd (by rw [heq]) hne

theorem reopen (h : s.Indexed) (id : TypeId) (traits : ClassTraits) (name : String) :
    (s.reopen id traits name).2.Indexed := by
  have hensured := h.ensure id name .concrete
  rcases s.reopen_cases id traits name with ⟨f, _, heq⟩ | ⟨t, ht, heq⟩
  · rw [heq]
    exact hensured
  · rw [heq]
    exact ((hensured.renamed ht).indexed hensured (contains_ensure_self ..)).update
      (fun d => d.opened_name id traits) id

theorem declare (h : s.Indexed) (id : TypeId) (declaration : Declaration) :
    (s.declare id declaration).2.Indexed := by
  have hlisted := h.listAll declaration.listed
  rcases s.declare_cases id declaration with ⟨_, _, heq⟩ | ⟨_, _, _, heq⟩ | ⟨_, _, heq⟩
  · rw [heq]
    exact hlisted.update (declaration.extend_name id) id
  · rw [heq]
    exact hlisted
  · rw [heq]
    exact h

theorem apply (h : s.Indexed) (o : Operation) : (o.apply s).Indexed := by
  cases o with
  | reopen id traits name => exact h.reopen id traits name
  | declare id declaration => exact h.declare id declaration
  | mention id => exact h.ensure id _ _
  | amend id kind index a => exact h.update (fun d => by cases kind <;> rfl) id

end Indexed

namespace Continues

theorem reopen (h : s.Indexed) (id : TypeId) (traits : ClassTraits) (name : String) :
    s.Continues (s.reopen id traits name).2 := by
  have hensured := ensure s id name .concrete
  rcases s.reopen_cases id traits name with ⟨f, _, heq⟩ | ⟨t, ht, heq⟩
  · rw [heq]
    exact hensured
  · rw [heq]
    exact (hensured.trans ((h.ensure id name .concrete).renamed ht).continues).trans
      (update (Description.develops_of_grows (Description.grows_opened id traits _)))

theorem declare (s : Schema) (id : TypeId) (declaration : Declaration) :
    s.Continues (s.declare id declaration).2 := by
  have hlisted := listAll s declaration.listed
  rcases s.declare_cases id declaration with ⟨_, hfits, heq⟩ | ⟨_, _, _, heq⟩ | ⟨_, _, heq⟩
  · rw [heq]
    exact hlisted.trans (update (.single (Or.inl (.extend hfits _))))
  · rw [heq]
    exact hlisted
  · rw [heq]
    exact refl s

theorem apply (h : s.Indexed) (o : Operation) : s.Continues (o.apply s) := by
  cases o with
  | reopen id traits name => exact reopen h id traits name
  | declare id declaration => exact declare s id declaration
  | mention id => exact ensure s id _ _
  | amend id kind index a => exact update (.single (Or.inr ⟨kind, index, a, rfl⟩))

end Continues

/-- A name that is taken stays with its type while other types are listed. -/
theorem find?_listAll {n : String} (hn : s.find? n = some id) (types : List (TypeId × Category)) :
    (s.listAll types).find? n = some id := by
  induction types generalizing s with
  | nil => exact hn
  | cons e rest ih =>
    refine ih ?_
    rw [find?_ensure, if_neg fun hnew => ?_]
    · exact hn
    · rw [← hnew.1, hn] at hnew
      cases hnew.2.1

/-- A type loses a name only when it is opened under another. -/
theorem find?_apply (h : s.Indexed) (o : Operation) {n : String} (hn : s.find? n = some id) :
    (o.apply s).find? n = some id ∨
      ∃ traits name, o = .reopen id traits name ∧ name ≠ n ∧ (s.reopen id traits name).1 = .ok () := by
  cases o with
  | declare id' declaration =>
    left
    have hlisted := find?_listAll hn declaration.listed
    change (s.declare id' declaration).2.find? n = some id
    rcases s.declare_cases id' declaration with ⟨_, _, heq⟩ | ⟨_, _, _, heq⟩ | ⟨_, _, heq⟩
    · rw [heq]
      exact hlisted
    · rw [heq]
      exact hlisted
    · rw [heq]
      exact hn
  | mention id' => exact Or.inl (find?_listAll hn [(id', id'.category)])
  | amend => exact Or.inl hn
  | reopen id' traits name =>
    by_cases hok : (s.reopen id' traits name).1 = .ok ()
    · have hfound := h.find?_reopen hok n
      by_cases hname : n = name
      · left
        have howner : id' = id := by
          rcases other?_eq_none_iff.1 ((reopen_ok_iff ..).1 hok) with hnone | hown
          · rw [← hname, hn] at hnone
            cases hnone
          · rw [← hname, hn] at hown
            exact (Option.some.inj hown).symm
        exact (hfound.trans (if_pos hname)).trans (congrArg some howner)
      · by_cases howner : id' = id
        · subst howner
          exact Or.inr ⟨traits, name, rfl, Ne.symm hname, hok⟩
        · left
          have hother : s.other? id' n = some id := by
            rw [other?, hn, if_neg fun heq => howner (Option.some.inj heq).symm]
          exact (hfound.trans (if_neg hname)).trans hother
    · exact Or.inl ((Indexed.find?_reopen_of_error hok n).trans hn)

theorem run_append (before after : List Operation) :
    run (before ++ after) = after.foldl (fun s o => o.apply s) (run before) :=
  List.foldl_append

theorem indexed_run (operations : List Operation) : (run operations).Indexed :=
  List.foldlRecOn _ _ Indexed.builtIn fun _ h o _ => h.apply o

theorem continues_run (before after : List Operation) :
    (run before).Continues (run (before ++ after)) := by
  rw [run_append]
  refine (List.foldlRecOn (motive := fun t => t.Indexed ∧ (run before).Continues t) after _
    ⟨indexed_run before, .refl _⟩ fun t ht o _ => ?_).2
  exact ⟨ht.1.apply o, ht.2.trans (.apply ht.1 o)⟩

/-- A name is lost to a type only when the type is opened under another. -/
theorem find?_run (before after : List Operation) {n : String} (hn : (run before).find? n = some id) :
    (run (before ++ after)).find? n = some id ∨
      ∃ between traits name rest, after = between ++ .reopen id traits name :: rest ∧ name ≠ n ∧
        ((run (before ++ between)).reopen id traits name).1 = .ok () := by
  induction after generalizing before with
  | nil => exact Or.inl (by rwa [List.append_nil])
  | cons o after ih =>
    have hsplit : before ++ o :: after = (before ++ [o]) ++ after := by simp
    have hstep : run (before ++ [o]) = o.apply (run before) := run_append before [o]
    rcases find?_apply (indexed_run before) o hn with hkept | ⟨traits, name, rfl, hname, hok⟩
    · rw [hsplit]
      refine (ih (before ++ [o]) (hstep ▸ hkept)).imp_right fun hlost => ?_
      obtain ⟨between, traits, name, rest, rfl, hname, hok⟩ := hlost
      exact ⟨o :: between, traits, name, rest, rfl, hname, by simpa using hok⟩
    · exact Or.inr ⟨[], traits, name, after, rfl, hname, by simpa using hok⟩

/-- Over any run of operations, failing ones included, each name stands for a listed type of that name, so
that no type has two names. Types stay listed as they are, names stay with their types until these are
opened under others, and a type that is opened is found under its name alone. -/
theorem names_consistent (before after : List Operation) :
    let s := run before
    let t := run (before ++ after)
    s.Indexed ∧ (∀ n n' id, s.find? n = some id → s.find? n' = some id → n = n') ∧
      s.Continues t ∧ s.size ≤ t.size ∧
      (∀ n id, s.find? n = some id → t.find? n = some id ∨
        ∃ between traits name rest, after = between ++ .reopen id traits name :: rest ∧ name ≠ n ∧
          ((run (before ++ between)).reopen id traits name).1 = .ok ()) ∧
      ∀ id traits name, (s.reopen id traits name).1 = .ok () →
        (s.reopen id traits name).2.find? name = some id ∧
          ∀ n, (s.reopen id traits name).2.find? n = some id → n = name := by
  intro s t
  have hs : s.Indexed := indexed_run before
  have ht : s.Continues t := continues_run before after
  refine ⟨hs, fun _ _ _ => hs.unique, ht, ht.size_le, fun _ _ => find?_run before after, ?_⟩
  intro id traits name hok
  have hfound : (s.reopen id traits name).2.find? name = some id := by
    rw [hs.find?_reopen hok, if_pos rfl]
  exact ⟨hfound, fun n hn => (hs.reopen id traits name).unique hn hfound⟩

end Schema
end Introspect
