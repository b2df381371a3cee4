import Introspect.Proofs.Choice

/-! What stands under each name once the methods and the fields of a type are recorded. -/
namespace Introspect

namespace PropertyTable

/-- Records one accessor for each group of candidates. -/
def recordAll (accessor : String → CandidateGroup → Accessor) (groups : Table String CandidateGroup) :
    PropertyTable :=
  groups.entries.foldl (fun t e => t.record e.1 (accessor e.1 e.2) (accessor e.1 e.2).type) ∅

theorem accessors_recordAll (accessor : String → CandidateGroup → Accessor)
    (groups : Table String CandidateGroup) (h : groups.keys.Nodup) (n : String) :
    (recordAll accessor groups).accessors.get? n = (groups.get? n).map (accessor n) := by
  have hproj : (recordAll accessor groups).accessors =
      groups.entries.foldl (fun t e => t.insert e.1 (accessor e.1 e.2)) ∅ := by
    exact (List.foldl_hom PropertyTable.accessors fun _ _ => rfl).symm
  rw [hproj, Table.get?_foldl_insert _ _ _ h, Table.get?_empty, Option.or_none]
  rfl

theorem types_recordAll (accessor : String → CandidateGroup → Accessor)
    (groups : Table String CandidateGroup) (h : groups.keys.Nodup) (n : String) :
    (recordAll accessor groups).types.get? n = (groups.get? n).map fun g => (accessor n g).type := by
  have hproj : (recordAll accessor groups).types =
      groups.entries.foldl (fun t e => t.insert e.1 (accessor e.1 e.2).type) ∅ :=
    (List.foldl_hom PropertyTable.types fun _ _ => rfl).symm
  rw [hproj, Table.get?_foldl_insert (fun n g => (accessor n g).type) _ _ h, Table.get?_empty,
    Option.or_none]
  rfl

end PropertyTable

namespace Model.Source

variable (s : Source)

theorem getterAccessor_type (property : String) (selection : Selection) :
    (s.getterAccessor property selection).type = s.getterType selection.best := by
  cases selection <;> rfl

theorem setterAccessor_type (property : String) (selection : Selection) :
    (s.setterAccessor property selection).type = s.setterType selection.best := by
  cases selection <;> rfl

/-- The getter that the candidates of a property come to. -/
def getterOf (property : String) (g : CandidateGroup) : Accessor :=
  s.getterAccessor property (Selection.getter s.schema g.first g.rest)

def setterOf (getters : PropertyTable) (property : String) (g : CandidateGroup) : Accessor :=
  s.setterAccessor property (Selection.setter s.schema (given? getters property) g)

theorem getters_of_byProperty {found : List Candidate} {groups : Table String CandidateGroup}
    (h : CandidateGroup.byProperty
      (found.filter (Candidate.isGetter s.options.strictPredicates)) = .ok groups) :
    s.getters found = .ok (PropertyTable.recordAll s.getterOf groups) := by
  simp only [getters, h, PropertyTable.recordAll, recordGetter, getterOf, getterAccessor_type]
  rfl

theorem setters_of_byProperty {found : List Candidate} {groups : Table String CandidateGroup}
    (h : CandidateGroup.byProperty (found.filter Candidate.isSetter) = .ok groups)
    (getters : PropertyTable) :
    s.setters found getters = .ok (PropertyTable.recordAll (s.setterOf getters) groups) := by
  simp only [setters, h, PropertyTable.recordAll, recordGroup_eq, recordSetter, setterOf,
    setterAccessor_type]
  rfl

/-- Getters are filed for any methods. -/
theorem exists_getter_groups (found : List Candidate) :
    ∃ groups, CandidateGroup.byProperty
        (found.filter (Candidate.isGetter s.options.strictPredicates)) = .ok groups ∧
      CandidateGroup.Groups
        (found.filter (Candidate.isGetter s.options.strictPredicates)) groups := by
  refine CandidateGroup.byProperty_groups fun c hc => ?_
  simp_all [Candidate.isGetter, Naming.isAccessor]

theorem exists_setter_groups (found : List Candidate) :
    ∃ groups, CandidateGroup.byProperty (found.filter Candidate.isSetter) = .ok groups ∧
      CandidateGroup.Groups (found.filter Candidate.isSetter) groups := by
  refine CandidateGroup.byProperty_groups fun c hc => ?_
  simp_all [Candidate.isSetter, Naming.isAccessor]

/-- Getters are found for any methods. -/
theorem getters_eq (found : List Candidate) :
    ∃ groups, CandidateGroup.Groups
        (found.filter (Candidate.isGetter s.options.strictPredicates)) groups ∧
      s.getters found = .ok (PropertyTable.recordAll s.getterOf groups) := by
  obtain ⟨groups, hok, hgroups⟩ := s.exists_getter_groups found
  exact ⟨groups, hgroups, s.getters_of_byProperty hok⟩

theorem setters_eq (found : List Candidate) (getters : PropertyTable) :
    ∃ groups, CandidateGroup.Groups (found.filter Candidate.isSetter) groups ∧
      s.setters found getters = .ok (PropertyTable.recordAll (s.setterOf getters) groups) := by
  obtain ⟨groups, hok, hgroups⟩ := exists_setter_groups found
  exact ⟨groups, hgroups, s.setters_of_byProperty hok getters⟩

theorem reading_eq (f : Field) : reading f = if true then some (.read f.reader) else none := rfl

theorem writing_eq (f : Field) :
    writing f = if isSettable f then some (.write f.writer) else none := rfl

/-- What a field has to offer for a property. -/
def offer (use : Field → Option FieldUse) (n : String) (f : Found Field) : Option Accessor :=
  if f.member.name = n ∧ Naming.isPropertyName n then (use f.member).map (s.fieldAccessor f) else none

theorem accessors_fill (use : Field → Option FieldUse) (t : PropertyTable) (f : Found Field)
    (n : String) :
    (s.fill use t f).accessors.get? n = (t.accessors.get? n).or (s.offer use n f) := by
  unfold fill offer
  cases use f.member with
  | none => simp
  | some u =>
    by_cases hn : f.member.name = n
    · subst hn
      cases ht : t.accessors.get? f.member.name with
      | some a => simp [PropertyTable.contains, Table.contains, ht]
      | none =>
        by_cases hv : Naming.isPropertyName f.member.name <;>
          simp [PropertyTable.contains, Table.contains, ht, recordField, hv]
    · have hrecord : (s.recordField t f u).accessors.get? n = t.accessors.get? n := by
        unfold recordField
        split_ifs
        · exact Table.get?_insert_of_ne _ _ (Ne.symm hn)
        · rfl
      rw [if_neg fun h => hn h.1, Option.or_none]
      dsimp only
      split_ifs
      · rfl
      · exact hrecord

/-- The first field with an offer stands in, and only where no accessor was. -/
theorem accessors_foldl_fill (use : Field → Option FieldUse) (fields : List (Found Field))
    (t : PropertyTable) (n : String) :
    (fields.foldl (s.fill use) t).accessors.get? n =
      (t.accessors.get? n).or (fields.findSome? (s.offer use n)) := by
  induction fields generalizing t with
  | nil => simp
  | cons f rest ih =>
    rw [List.foldl_cons, ih, accessors_fill, List.findSome?_cons, Option.or_assoc]
    cases s.offer use n f <;> rfl

theorem foldl_addField (fields : List (Found Field)) (m : Model) :
    fields.foldl s.addField m =
      { m with
        readable := fields.foldl (s.fill reading) m.readable
        writable := fields.foldl (s.fill writing) m.writable } := by
  induction fields generalizing m with
  | nil => rfl
  | cons f rest ih => rw [List.foldl_cons, ih]; rfl

/-- What is built is the methods' tables with fields filled in. -/
theorem build_eq {readable writable : PropertyTable}
    (hr : s.getters (s.schema.shownMethods s.subject) = .ok readable)
    (hw : s.setters (s.schema.shownMethods s.subject) readable = .ok writable) :
    build s.schema s.subject s.options = .ok {
      type := s.subject
      options := s.options
      readable := (s.schema.shownFields s.subject).foldl (s.fill reading) readable
      writable := (s.schema.shownFields s.subject).foldl (s.fill writing) writable
      defaultConstructor? := (s.schema.describe s.subject).defaultConstructor? } := by
  unfold build
  simp only [hr, hw, bind, Except.bind, foldl_addField]
  rfl

/-- What stands under each name of a model: what the methods come to, or what the first field has to
offer. -/
structure Built (getGroups setGroups : Table String CandidateGroup) (m : Model) : Prop where
  getters : CandidateGroup.Groups ((s.schema.shownMethods s.subject).filter
    (Candidate.isGetter s.options.strictPredicates)) getGroups
  setters : CandidateGroup.Groups ((s.schema.shownMethods s.subject).filter Candidate.isSetter)
    setGroups
  readable : ∀ n, m.readable.accessors.get? n = ((getGroups.get? n).map (s.getterOf n)).or
    ((s.schema.shownFields s.subject).findSome? (s.offer reading n))
  writable : ∀ n, m.writable.accessors.get? n =
    ((setGroups.get? n).map (s.setterOf (.recordAll s.getterOf getGroups) n)).or
      ((s.schema.shownFields s.subject).findSome? (s.offer writing n))

theorem built {m : Model} (h : build s.schema s.subject s.options = .ok m) :
    ∃ getGroups setGroups, s.Built getGroups setGroups m := by
  obtain ⟨getGroups, hgetters, hr⟩ := s.getters_eq (s.schema.shownMethods s.subject)
  obtain ⟨setGroups, hsetters, hw⟩ := s.setters_eq (s.schema.shownMethods s.subject)
    (.recordAll s.getterOf getGroups)
  rw [s.build_eq hr hw] at h
  cases h
  refine ⟨getGroups, setGroups, hgetters, hsetters, ?_, ?_⟩
  · intro n
    rw [accessors_foldl_fill, PropertyTable.accessors_recordAll _ _ hgetters.nodup]
  · intro n
    rw [accessors_foldl_fill, PropertyTable.accessors_recordAll _ _ hsetters.nodup]

theorem defaultConstructor?_of_build {m : Model} (h : build s.schema s.subject s.options = .ok m) :
    m.defaultConstructor? = (s.schema.describe s.subject).defaultConstructor? := by
  obtain ⟨_, _, hr⟩ := s.getters_eq (s.schema.shownMethods s.subject)
  obtain ⟨_, _, hw⟩ := s.setters_eq (s.schema.shownMethods s.subject) _
  rw [s.build_eq hr hw] at h
  cases h
  rfl

theorem type_of_build {m : Model} (h : build s.schema s.subject s.options = .ok m) : m.type = s.subject := by
  obtain ⟨_, _, hr⟩ := s.getters_eq (s.schema.shownMethods s.subject)
  obtain ⟨_, _, hw⟩ := s.setters_eq (s.schema.shownMethods s.subject) _
  rw [s.build_eq hr hw] at h
  cases h
  rfl

end Model.Source
end Introspect
