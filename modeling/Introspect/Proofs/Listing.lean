import Introspect.Proofs.Recording
import Introspect.Proofs.Sifting

/-! The order in which the properties of a model are listed: each name stands where the methods, or after
them the fields, first offer it. -/
namespace Introspect

/-- Reading on, a new entry is kept and a repeated one is dropped. -/
theorem eraseDups_concat (l : List String) (a : String) :
    (l ++ [a]).eraseDups = if a ∈ l then l.eraseDups else l.eraseDups ++ [a] := by
  rw [List.eraseDups_append]
  by_cases ha : a ∈ l <;> simp [List.removeAll, List.eraseDups_cons, ha]

/-- The property that a candidate stands for. Names kept for internal use stand for none. -/
def Candidate.property? (c : Candidate) : Option String :=
  (Naming.propertyOf? c.member.name).filter Naming.isPropertyName

namespace CandidateGroup

theorem keys_file {t t' : Table String CandidateGroup} {offered : List String}
    (ht : t.keys = offered.eraseDups) {c : Candidate} (h : file t c = .ok t') :
    t'.keys = (offered ++ c.property?.toList).eraseDups := by
  unfold file at h
  unfold Candidate.property?
  cases hname : Naming.propertyOf? c.member.name with
  | none => simp [hname] at h
  | some property =>
    simp only [hname] at h
    by_cases hv : Naming.isPropertyName property
    · simp only [hv, if_true, Except.ok.injEq] at h
      simp only [Option.filter_some, hv, if_true, Option.toList_some, eraseDups_concat, ← h,
        Table.keys_insert, ht, List.mem_eraseDups]
    · simp only [hv] at h
      cases h
      simpa [Option.filter_some, hv] using ht

/-- Properties are filed in the order in which candidates first stand for them. -/
theorem keys_byProperty {candidates : List Candidate} {groups : Table String CandidateGroup}
    (h : byProperty candidates = .ok groups) :
    groups.keys = (candidates.filterMap Candidate.property?).eraseDups := by
  have hfold (rest : List Candidate) {t : Table String CandidateGroup} (offered : List String)
      (ht : t.keys = offered.eraseDups) (hok : rest.foldlM file t = .ok groups) :
      groups.keys = (offered ++ rest.filterMap Candidate.property?).eraseDups := by
    induction rest generalizing t offered with
    | nil =>
      cases hok
      simpa using ht
    | cons c rest ih =>
      rw [List.foldlM_cons] at hok
      cases hfile : file t c with
      | error f => simp [hfile, bind, Except.bind] at hok
      | ok t' =>
        rw [hfile] at hok
        have hrest := ih _ (keys_file ht hfile) hok
        cases hc : c.property? <;> simpa [hc] using hrest
  exact hfold candidates [] rfl h

end CandidateGroup

namespace PropertyTable

/-- The names on offer are listed, each where it first occurs. -/
structure Lists (t : PropertyTable) (offered : List String) : Prop where
  names : t.names = offered.eraseDups
  accessors : t.accessors.keys = t.names
  types : t.types.keys = t.names

variable {t : PropertyTable} {offered : List String}

theorem Lists.mem_iff (h : t.Lists offered) (n : String) : n ∈ t.names ↔ n ∈ offered := by
  rw [h.names, List.mem_eraseDups]

theorem Lists.record (h : t.Lists offered) (n : String) (a : Accessor) (type : RuntimeType) :
    (t.record n a type).Lists (offered ++ [n]) := by
  have hnames : (t.record n a type).names = if n ∈ t.names then t.names else t.names ++ [n] := by
    simp only [PropertyTable.record, ← Table.mem_keys_iff, h.types]
  refine ⟨?_, ?_, ?_⟩
  · rw [hnames, eraseDups_concat, h.names]
    simp only [List.mem_eraseDups]
  · rw [record_accessors, Table.keys_insert, h.accessors, hnames]
  · rw [record_types, Table.keys_insert, h.types, hnames]

/-- A name that is listed already can be offered again. -/
theorem Lists.again (h : t.Lists offered) {n : String} (hn : n ∈ t.names) : t.Lists (offered ++ [n]) where
  names := by rw [eraseDups_concat, if_pos ((h.mem_iff n).1 hn), h.names]
  accessors := h.accessors
  types := h.types

theorem recordAll_lists (accessor : String → CandidateGroup → Accessor)
    (groups : Table String CandidateGroup) : (recordAll accessor groups).Lists groups.keys := by
  have hfold (entries : List (String × CandidateGroup)) {t : PropertyTable} (offered : List String)
      (h : t.Lists offered) :
      (entries.foldl (fun t e => t.record e.1 (accessor e.1 e.2) (accessor e.1 e.2).type) t).Lists
        (offered ++ entries.map Prod.fst) := by
    induction entries generalizing t offered with
    | nil => simpa using h
    | cons e rest ih =>
      have hrest := ih _ (h.record e.1 (accessor e.1 e.2) (accessor e.1 e.2).type)
      simpa using hrest
  exact hfold groups.entries [] ⟨rfl, rfl, rfl⟩

end PropertyTable

namespace Model.Source

variable (s : Source)

/-- The property for which a field may stand in. -/
def fieldProperty? (use : Field → Option FieldUse) (f : Found Field) : Option String :=
  if Naming.isPropertyName f.member.name then (use f.member).map fun _ => f.member.name else none

theorem fill_lists {t : PropertyTable} {offered : List String} (h : t.Lists offered)
    (use : Field → Option FieldUse) (f : Found Field) :
    (s.fill use t f).Lists (offered ++ (fieldProperty? use f).toList) := by
  unfold fill fieldProperty?
  cases use f.member with
  | none => simpa using h
  | some u =>
    by_cases hv : Naming.isPropertyName f.member.name
    · by_cases hc : t.contains f.member.name
      · have hn : f.member.name ∈ t.names :=
          h.accessors ▸ (Table.mem_keys_iff t.accessors f.member.name).2 hc
        simpa [hv, hc] using h.again hn
      · simpa [hv, hc, recordField] using h.record f.member.name _ _
    · simpa [hv, recordField] using h

theorem foldl_fill_lists {t : PropertyTable} {offered : List String} (h : t.Lists offered)
    (use : Field → Option FieldUse) (fields : List (Found Field)) :
    (fields.foldl (s.fill use) t).Lists (offered ++ fields.filterMap (fieldProperty? use)) := by
  induction fields generalizing t offered with
  | nil => simpa using h
  | cons f rest ih =>
    have hrest := ih (s.fill_lists h use f)
    cases hf : fieldProperty? use f <;> simpa [hf] using hrest

/-- What methods and then fields offer on one side. -/
def offered (isCandidate : Candidate → Bool) (use : Field → Option FieldUse) : List String :=
  ((s.schema.shownMethods s.subject).filter isCandidate).filterMap Candidate.property? ++
    (s.schema.shownFields s.subject).filterMap (fieldProperty? use)

/-- The names on each side of a model are those on offer, in their order. -/
theorem build_lists {m : Model} (h : build s.schema s.subject s.options = .ok m) :
    m.readable.Lists (s.offered (Candidate.isGetter s.options.strictPredicates) reading) ∧
      m.writable.Lists (s.offered Candidate.isSetter writing) := by
  have hside {isCandidate : Candidate → Bool} {groups : Table String CandidateGroup}
      (hgroups : CandidateGroup.byProperty
        ((s.schema.shownMethods s.subject).filter isCandidate) = .ok groups)
      (accessor : String → CandidateGroup → Accessor) (use : Field → Option FieldUse) :
      ((s.schema.shownFields s.subject).foldl (s.fill use) (.recordAll accessor groups)).Lists
        (s.offered isCandidate use) := by
    have hmethods := PropertyTable.recordAll_lists accessor groups
    rw [CandidateGroup.keys_byProperty hgroups] at hmethods
    exact s.foldl_fill_lists ⟨hmethods.names.trans (eraseDupsBy_eraseDupsBy _), hmethods.accessors,
      hmethods.types⟩ use _
  obtain ⟨getGroups, hgetters, _⟩ := s.exists_getter_groups (s.schema.shownMethods s.subject)
  obtain ⟨setGroups, hsetters, _⟩ := exists_setter_groups (s.schema.shownMethods s.subject)
  rw [s.build_eq (s.getters_of_byProperty hgetters) (s.setters_of_byProperty hsetters _)] at h
  cases h
  exact ⟨hside hgetters _ reading, hside hsetters _ writing⟩

end Model.Source
end Introspect
