import Mathlib.Data.List.Nodup
import Introspect.Proofs.Assignability
import Introspect.Proofs.Consistency

/-! Candidates for one side of a property as rivals. They are weighed one after another, each against the
best before it, until two of them conflict. What every comparison keeps holds of the winner and all its
rivals in the end. -/
namespace Introspect

namespace Schema

variable {s : Schema} {t u v : RuntimeType}

theorem accepts_self (h : t.isValid) : s.accepts t t := by
  obtain ⟨id, hid⟩ := Option.isSome_iff_exists.1 h
  obtain ⟨element, rank⟩ := t
  cases hid
  exact (Assignable.same id rank).accepts

theorem accepts_trans (htop : s.Topped) (htu : s.accepts t u) (huv : s.accepts u v) : s.accepts t v :=
  ((accepts_iff.1 htu).trans htop (accepts_iff.1 huv)).accepts

theorem accepts_antisymm (htop : s.Topped) (hacyclic : s.Acyclic) (htu : s.accepts t u)
    (hut : s.accepts u t) : t = u :=
  (accepts_iff.1 htu).antisymm htop hacyclic (accepts_iff.1 hut)

/-- A member of the group whose type is accepted by the types of all others. -/
def Least (s : Schema) (typeOf : Candidate → RuntimeType) (group : List Candidate)
    (winner : Candidate) : Prop :=
  ∃ others, group.Perm (winner :: others) ∧ ∀ c ∈ others, s.accepts (typeOf c) (typeOf winner)

/-- However a group is ordered, there is no more than one least type in it. -/
theorem Least.typeOf_eq (htop : s.Topped) (hacyclic : s.Acyclic) {typeOf : Candidate → RuntimeType}
    {group group' : List Candidate} (hperm : group.Perm group') {w w' : Candidate}
    (h : s.Least typeOf group w) (h' : s.Least typeOf group' w') : typeOf w = typeOf w' := by
  obtain ⟨others, hgroup, haccepts⟩ := h
  obtain ⟨others', hgroup', haccepts'⟩ := h'
  have hsame : (w :: others).Perm (w' :: others') := (hgroup.symm.trans hperm).trans hgroup'
  rcases List.mem_cons.1 (hsame.mem_iff.2 List.mem_cons_self) with rfl | hw'
  · rfl
  · rcases List.mem_cons.1 (hsame.mem_iff.1 List.mem_cons_self) with rfl | hw
    · rfl
    · exact accepts_antisymm htop hacyclic (haccepts' w hw) (haccepts w' hw')

end Schema

namespace Selection

/-- Compares each candidate with the best before it. A conflict is final. -/
def reduce (compare : Candidate → Candidate → Selection) (best : Candidate) : List Candidate → Selection
  | [] => .chosen best
  | c :: rest =>
    match compare best c with
    | .chosen winner => reduce compare winner rest
    | .conflict first second => .conflict first second

/-- Of two candidates one is chosen, or both conflict. -/
def Fair (compare : Candidate → Candidate → Selection) : Prop :=
  ∀ best c, compare best c = .chosen best ∨ compare best c = .chosen c ∨
    compare best c = .conflict best c

/-- As long as there is no conflict, a relation between the best and the others stays true. -/
def Keeps (compare : Candidate → Candidate → Selection) (P : Candidate → List Candidate → Prop) : Prop :=
  ∀ best others c, P best others →
    compare best c = .chosen best ∧ P best (c :: others) ∨
    compare best c = .chosen c ∧ P c (best :: others) ∨
    compare best c = .conflict best c

/-- A member of the group that none of those found after it replaces. -/
def Stays (compare : Candidate → Candidate → Selection) (group : List Candidate)
    (winner : Candidate) : Prop :=
  ∃ before after, group = before ++ winner :: after ∧
    ∀ c ∈ after, compare winner c = .chosen winner ∧ compare winner c ≠ .chosen c

variable {compare : Candidate → Candidate → Selection} {best winner c : Candidate}
  {rest : List Candidate}

theorem reduce_chosen {P : Candidate → List Candidate → Prop} (hkeeps : Keeps compare P)
    {others : List Candidate} (h : P best others) (hw : reduce compare best rest = .chosen winner) :
    ∃ others', (best :: others ++ rest).Perm (winner :: others') ∧ P winner others' := by
  induction rest generalizing best others with
  | nil =>
    cases hw
    exact ⟨others, by simp, h⟩
  | cons c rest ih =>
    rw [reduce] at hw
    rcases hkeeps best others c h with ⟨hc, hkept⟩ | ⟨hc, hreplaced⟩ | hc
    · rw [hc] at hw
      obtain ⟨others', hperm, h'⟩ := ih hkept hw
      exact ⟨others', (List.perm_middle.cons best).trans hperm, h'⟩
    · rw [hc] at hw
      obtain ⟨others', hperm, h'⟩ := ih hreplaced hw
      exact ⟨others', List.perm_middle.trans hperm, h'⟩
    · rw [hc] at hw
      cases hw

/-- Two candidates conflict in the order in which they were found. -/
theorem reduce_conflict (hfair : Fair compare) {first second : Candidate}
    (h : reduce compare best rest = .conflict first second) :
    [first, second].Sublist (best :: rest) ∧ compare first second = .conflict first second := by
  induction rest generalizing best with
  | nil => cases h
  | cons c rest ih =>
    rw [reduce] at h
    rcases hfair best c with hc | hc | hc
    · rw [hc] at h
      obtain ⟨hpair, hconflict⟩ := ih h
      exact ⟨hpair.trans ((List.sublist_cons_self c rest).cons_cons best), hconflict⟩
    · rw [hc] at h
      obtain ⟨hpair, hconflict⟩ := ih h
      exact ⟨hpair.cons best, hconflict⟩
    · rw [hc] at h
      cases h
      exact ⟨((List.nil_sublist rest).cons_cons _).cons_cons _, hc⟩

theorem Stays.cons (h : Stays compare rest winner) : Stays compare (best :: rest) winner := by
  obtain ⟨before, after, rfl, hafter⟩ := h
  exact ⟨best :: before, after, rfl, hafter⟩

/-- A candidate that does not replace the best can be passed over. -/
theorem Stays.insert (h : Stays compare (best :: rest) winner) (hkept : compare best c = .chosen best)
    (hnot : compare best c ≠ .chosen c) : Stays compare (best :: c :: rest) winner := by
  obtain ⟨before, after, hgroup, hafter⟩ := h
  cases before with
  | nil =>
    obtain ⟨rfl, rfl⟩ := List.cons.inj hgroup
    exact ⟨[], c :: rest, rfl, List.forall_mem_cons.2 ⟨⟨hkept, hnot⟩, hafter⟩⟩
  | cons b before =>
    obtain ⟨rfl, rfl⟩ := List.cons.inj hgroup
    exact ⟨best :: c :: before, after, rfl, hafter⟩

theorem reduce_stays (hfair : Fair compare) (hw : reduce compare best rest = .chosen winner) :
    Stays compare (best :: rest) winner := by
  induction rest generalizing best with
  | nil =>
    cases hw
    exact ⟨[], [], rfl, by simp⟩
  | cons c rest ih =>
    rw [reduce] at hw
    by_cases hreplaced : compare best c = .chosen c
    · rw [hreplaced] at hw
      exact (ih hw).cons
    · rcases hfair best c with hc | hc | hc
      · rw [hc] at hw
        exact (ih hw).insert hc hreplaced
      · exact absurd hc hreplaced
      · rw [hc] at hw
        cases hw

end Selection

theorem CandidateGroup.exists_ofList? {candidates : List Candidate} (h : candidates ≠ []) :
    ∃ g, ofList? candidates = some g := by
  cases candidates with
  | nil => exact absurd rfl h
  | cons c rest => exact ⟨_, rfl⟩

/-- The candidates for one side of a property, in the order in which they were found. -/
def Candidate.rivals (isCandidate : Candidate → Bool) (found : List Candidate) (n : String) :
    List Candidate :=
  (found.filter isCandidate).filter (·.denotes n)

theorem Candidate.isCandidate_of_mem_rivals {isCandidate : Candidate → Bool} {found : List Candidate}
    {n : String} {c : Candidate} (h : c ∈ rivals isCandidate found n) : isCandidate c :=
  (List.mem_filter.1 (List.mem_filter.1 h).1).2

namespace PropertyTable

/-- A name with an accessor is listed once, and its type is that of the accessor. -/
theorem Consistent.listed {Fits : Accessor → Prop} {t : PropertyTable} (h : t.Consistent Fits)
    {n : String} {a : Accessor} (ha : t.accessors.get? n = some a) :
    t.names.count n = 1 ∧ t.types.get? n = some a.type := by
  have hmem : n ∈ t.names := by
    rw [← h.keys_accessors, Table.mem_keys_iff, Table.contains, ha, Option.isSome_some]
  refine ⟨List.count_eq_one_of_mem h.names_nodup hmem, ?_⟩
  rw [h.types_get?, ha, Option.map_some]

end PropertyTable

namespace Model.Source

open CandidateGroup Candidate

variable {s : Source} {found : List Candidate} {getters t : PropertyTable}

theorem accessors_getters (h : s.getters found = .ok t) (n : String) :
    t.accessors.get? n =
      (ofList? (rivals (isGetter s.options.strictPredicates) found n)).map (s.getterOf n) := by
  obtain ⟨groups, hgroups, hok⟩ := s.getters_eq found
  obtain rfl := Except.ok.inj (hok.symm.trans h)
  rw [PropertyTable.accessors_recordAll _ _ hgroups.nodup, hgroups.get?_eq]
  rfl

theorem accessors_setters (h : s.setters found getters = .ok t) (n : String) :
    t.accessors.get? n = (ofList? (rivals isSetter found n)).map (s.setterOf getters n) := by
  obtain ⟨groups, hgroups, hok⟩ := s.setters_eq found getters
  obtain rfl := Except.ok.inj (hok.symm.trans h)
  rw [PropertyTable.accessors_recordAll _ _ hgroups.nodup, hgroups.get?_eq]
  rfl

/-- What the getter methods of a property come to comes before all fields. -/
theorem Built.readable_of_rivals {getGroups setGroups : Table String CandidateGroup} {m : Model}
    (h : s.Built getGroups setGroups m) {n : String} {g : CandidateGroup}
    (hg : ofList? (rivals (isGetter s.options.strictPredicates)
      (s.schema.shownMethods s.subject) n) = some g) :
    m.readable.accessors.get? n = some (s.getterOf n g) := by
  have hgroup : getGroups.get? n = some g := (h.getters.get?_eq n).trans hg
  rw [h.readable, hgroup, Option.map_some, Option.some_or]

theorem Built.writable_of_rivals {getGroups setGroups : Table String CandidateGroup} {m : Model}
    (h : s.Built getGroups setGroups m) {n : String} {g : CandidateGroup}
    (hg : ofList? (rivals isSetter (s.schema.shownMethods s.subject) n) = some g) :
    m.writable.accessors.get? n = some (s.setterOf (.recordAll s.getterOf getGroups) n g) := by
  have hgroup : setGroups.get? n = some g := (h.setters.get?_eq n).trans hg
  rw [h.writable, hgroup, Option.map_some, Option.some_or]

end Model.Source
end Introspect
