import Introspect.Proofs.Completeness
import Introspect.Proofs.Erasure
import Introspect.Proofs.Sifting

/-! When the two sides of a property have one type. A setter is matched against the getter by its erased
parameter, while the types of both sides are resolved, so that type variables can come between them. -/
namespace Introspect

namespace Selection

variable (s : Schema) {given : Option RuntimeType} {c : Candidate}

private theorem setterAfter_of_find? {rest : List Candidate} (selection : Selection)
    (h : rest.find? (fun c => given = some c.parameter) = some c) :
    setterAfter s given selection rest = .chosen c := by
  induction rest generalizing selection with
  | nil => cases h
  | cons d rest ih =>
    unfold setterAfter
    split_ifs with hd
    · simp only [List.find?_cons, hd, decide_true, Option.some.injEq] at h
      rw [h]
    · simp only [List.find?_cons, hd, decide_false] at h
      exact ih _ h

/-- The first that takes just what is given is chosen, even where setters before it conflict. -/
theorem setter_of_find? {g : CandidateGroup}
    (h : g.toList.find? (fun c => given = some c.parameter) = some c) :
    setter s given g = .chosen c := by
  unfold setter
  split_ifs with hfirst
  · simp only [CandidateGroup.toList, List.find?_cons, hfirst, decide_true, Option.some.injEq] at h
    rw [h]
  · simp only [CandidateGroup.toList, List.find?_cons, hfirst, decide_false] at h
    exact setterAfter_of_find? s _ h

theorem setter_of_alone {g : CandidateGroup} (h : g.toList = [c]) : setter s given g = .chosen c := by
  simp only [CandidateGroup.toList, List.cons.injEq] at h
  unfold setter
  rw [h.1, h.2]
  split_ifs <;> rfl

end Selection

namespace Model

namespace Source

variable {s : Source} {getGroups setGroups : Table String CandidateGroup} {m : Model} {n : String}
  {getter : MethodAccessor}

/-- A method accessor comes from the methods. -/
theorem Built.group_of_method (h : s.Built getGroups setGroups m)
    (hget : m.readable.accessors.get? n = some (.method getter)) :
    ∃ g, getGroups.get? n = some g ∧ s.getterOf n g = .method getter := by
  rw [h.readable] at hget
  cases hg : getGroups.get? n with
  | some g => exact ⟨g, rfl, by simpa [hg] using hget⟩
  | none =>
    simp only [hg, Option.map_none, Option.none_or] at hget
    obtain ⟨f, _, hf⟩ := List.exists_of_findSome?_eq_some hget
    unfold offer at hf
    split_ifs at hf
    simp [reading, fieldAccessor] at hf

theorem Built.given?_eq (h : s.Built getGroups setGroups m)
    (hget : m.readable.accessors.get? n = some (.method getter)) :
    given? (.recordAll s.getterOf getGroups) n = some getter.type := by
  obtain ⟨g, hg, hacc⟩ := h.group_of_method hget
  unfold given?
  rw [PropertyTable.accessors_recordAll _ _ h.getters.nodup,
    PropertyTable.types_recordAll _ _ h.getters.nodup, hg]
  simp [hacc, Accessor.isAmbiguous, Accessor.type]

theorem Built.setter_of_chosen (h : s.Built getGroups setGroups m) {g : CandidateGroup}
    (hg : setGroups.get? n = some g) {c : Candidate}
    (hc : Selection.setter s.schema (given? (.recordAll s.getterOf getGroups) n) g = .chosen c) :
    m.writable.accessors.get? n = some (s.methodAccessor c (s.setterType c)) := by
  rw [h.writable, hg]
  simp [setterOf, hc, setterAccessor]

theorem Built.group_of_offers (h : s.Built getGroups setGroups m)
    (hget : m.readable.accessors.get? n = some (.method getter)) {c : Candidate}
    (hc : s.Offers Candidate.isSetter n c) :
    ∃ g, setGroups.get? n = some g ∧ ∀ d, d ∈ g.toList ↔ s.Offers Candidate.isSetter n d := by
  obtain ⟨g, hg, _⟩ := h.group_of_method hget
  have hn := ((s.exists_group_iff h.getters n).1 ⟨g, hg⟩).1
  obtain ⟨g, hg⟩ := (s.exists_group_iff h.setters n).2 ⟨hn, c, hc⟩
  exact ⟨g, hg, s.mem_group_iff h.setters hn hg⟩

/-- Of the setters that take just what the getter method gives, the first found is the setter. -/
theorem Built.setter_of_match (h : s.Built getGroups setGroups m)
    (hget : m.readable.accessors.get? n = some (.method getter)) {c : Candidate}
    (hc : s.Offers Candidate.isSetter n c) (hmatch : c.parameter = getter.type) :
    ∃ w, s.Offers Candidate.isSetter n w ∧ w.parameter = getter.type ∧
      m.writable.accessors.get? n = some (s.methodAccessor w (s.setterType w)) := by
  obtain ⟨g, hg, hmem⟩ := h.group_of_offers hget hc
  have hgiven := h.given?_eq hget
  have hsome : (g.toList.find? fun c => some getter.type = some c.parameter).isSome :=
    List.find?_isSome.2 ⟨c, (hmem c).2 hc, by simp [hmatch]⟩
  obtain ⟨w, hw⟩ := Option.isSome_iff_exists.1 hsome
  refine ⟨w, (hmem w).1 (List.mem_of_find?_eq_some hw), ?_, ?_⟩
  · have htype := List.find?_some hw
    simp only [Option.some.injEq, decide_eq_true_eq] at htype
    exact htype.symm
  · refine h.setter_of_chosen hg ?_
    rw [hgiven]
    exact Selection.setter_of_find? s.schema hw

/-- A setter without rival is the setter. -/
theorem Built.setter_of_alone (h : s.Built getGroups setGroups m)
    (hget : m.readable.accessors.get? n = some (.method getter)) {c : Candidate}
    (hc : s.Offers Candidate.isSetter n c) (halone : ∀ d, s.Offers Candidate.isSetter n d → d = c) :
    m.writable.accessors.get? n = some (s.methodAccessor c (s.setterType c)) := by
  obtain ⟨g, hg, hmem⟩ := h.group_of_offers hget hc
  have hnodup : g.toList.Nodup := by
    rw [h.setters.toList_eq hg]
    exact ((Schema.shownMethods_nodup s.subject).filter _).filter _
  have hsame : ∀ d ∈ g.toList, d = c := fun d hd => halone d ((hmem d).1 hd)
  have hfirst : g.first = c := hsame g.first (by simp [CandidateGroup.toList])
  have hrest : g.rest = [] := by
    refine List.eq_nil_iff_forall_not_mem.2 fun d hd => ?_
    have hd' : d = g.first := by rw [hfirst, hsame d (by simp [CandidateGroup.toList, hd])]
    exact (List.nodup_cons.1 hnodup).1 (hd' ▸ hd)
  have hlist : g.toList = [c] := by rw [CandidateGroup.toList, hfirst, hrest]
  exact h.setter_of_chosen hg (Selection.setter_of_alone s.schema hlist)

/-- Without variables a setter takes just what its erased parameter says. -/
theorem setterType_of_ground {operations : List Schema.Operation} (hs : s.schema = .run operations)
    {c : Candidate} (hc : c ∈ s.schema.shownMethods s.subject) (hg : c.member.Ground) :
    s.setterType c = c.parameter := by
  have hlisted := (Schema.shownMethods_listed s.subject c hc).2
  rw [hs] at hlisted
  have he := erased_lasting.run operations c.owner c.member hlisted
  unfold setterType Candidate.parameter
  rw [Schema.paramsAt_of_ground _ he hg]

theorem propertyType_of_accessor (hm : build s.schema s.subject s.options = .ok m) (side : Side)
    {a : Accessor} (ha : (m.side side).accessors.get? n = some a) :
    m.propertyType s.schema side n = .ok a.type := by
  obtain ⟨m', hm', hr, hw⟩ := s.exists_build
  rw [hm] at hm'
  cases hm'
  have htypes : (m.side side).types.get? n = some a.type := by
    cases side with
    | getter => rw [Model.side, hr.types_get?]; exact congrArg (·.map Accessor.type) ha
    | setter => rw [Model.side, hw.types_get?]; exact congrArg (·.map Accessor.type) ha
  unfold propertyType
  rw [htypes]
  rfl

/-- Getter and setter of a property have one type if some setter takes that type. Its declared parameter
must be free of variables, unless it takes the type by its erased parameter too or has no rival. No rival
with variables may take the type by its erased parameter alone. -/
theorem setter_type_eq_getter_type {operations : List Schema.Operation}
    (hs : s.schema = .run operations) (hm : build s.schema s.subject s.options = .ok m)
    (hget : m.readable.accessors.get? n = some (.method getter)) {c : Candidate}
    (hc : s.Offers Candidate.isSetter n c) (htype : s.setterType c = getter.type)
    (hview : c.member.Ground ∨ c.parameter = getter.type ∨
      ∀ d, s.Offers Candidate.isSetter n d → d = c)
    (hrivals : ∀ d, s.Offers Candidate.isSetter n d → ¬ d.member.Ground →
      d.parameter = getter.type → s.setterType d = getter.type) :
    ∃ setter, m.writable.accessors.get? n = some (.method setter) ∧
      m.propertyType s.schema .setter n = .ok getter.type ∧
      m.propertyType s.schema .getter n = .ok getter.type := by
  obtain ⟨getGroups, setGroups, hbuilt⟩ := s.built hm
  have hmatched (hmatch : c.parameter = getter.type) : ∃ w, m.writable.accessors.get? n =
      some (s.methodAccessor w (s.setterType w)) ∧ s.setterType w = getter.type := by
    obtain ⟨w, hw, hparameter, hsetter⟩ := hbuilt.setter_of_match hget hc hmatch
    refine ⟨w, hsetter, ?_⟩
    by_cases hg : w.member.Ground
    · rw [setterType_of_ground hs hw.shown hg, hparameter]
    · exact hrivals w hw hg hparameter
  obtain ⟨w, hw, hwtype⟩ : ∃ w, m.writable.accessors.get? n =
      some (s.methodAccessor w (s.setterType w)) ∧ s.setterType w = getter.type := by
    rcases hview with hg | hmatch | halone
    · refine hmatched ?_
      rw [← setterType_of_ground hs hc.shown hg]
      exact htype
    · exact hmatched hmatch
    · exact ⟨c, hbuilt.setter_of_alone hget hc halone, htype⟩
  have hsetter := propertyType_of_accessor hm .setter hw
  have hgetter := propertyType_of_accessor hm .getter hget
  refine ⟨_, hw, ?_, hgetter⟩
  rw [hsetter, ← hwtype]
  rfl

end Source

/-- A class that overloads setters, some by its type parameter, and a subclass of it with strings. -/
def overloading : List Schema.Operation := [
  .reopen Schema.baseClass {} "Base",
  .declare Schema.baseClass (.typeParameter { name := "T" }),
  .declare Schema.baseClass (.method
    { name := "getId", result := some .object, declaredReturns := some (.var "T"), body := .nothing }),
  .declare Schema.baseClass (.method
    { name := "setId", params := [.object], declaredParams := [.var "T"], body := .nothing }),
  .declare Schema.baseClass (.method { name := "setId", params := [.int], body := .nothing }),
  .declare Schema.baseClass (.method { name := "getName", result := some .string, body := .nothing }),
  .declare Schema.baseClass (.method { name := "setName", params := [.int], body := .nothing }),
  .declare Schema.baseClass (.method { name := "setName", params := [.string], body := .nothing }),
  .declare Schema.baseClass (.method { name := "getCode", result := some .object, body := .nothing }),
  .declare Schema.baseClass (.method
    { name := "setCode", params := [.object], declaredParams := [.var "T"], body := .nothing }),
  .declare Schema.baseClass (.method { name := "setcode", params := [.object], body := .nothing }),
  .reopen Schema.derivedClass {} "Derived",
  .declare Schema.derivedClass (.superclass
    { base := some Schema.baseClass, args := [.plain (.of (.builtIn .string))] })]

def overloaded : Source where
  schema := .run overloading
  subject := Schema.derivedClass
  options := {}

theorem setter_type_eq_getter_type_overloaded :
    ∃ m setter, build overloaded.schema overloaded.subject overloaded.options = .ok m ∧
      m.writable.accessors.get? "name" = some (.method setter) ∧
      m.propertyType overloaded.schema .setter "name" =
        m.propertyType overloaded.schema .getter "name" := by
  obtain ⟨m, getter, c, hm, hget, hfound, hcandidate, hdenotes, htype⟩ :
      ∃ m getter c, build overloaded.schema overloaded.subject overloaded.options = .ok m ∧
        m.readable.accessors.get? "name" = some (.method getter) ∧
        (overloaded.schema.shownMethods overloaded.subject)[5]? = some c ∧ c.isSetter ∧
        Naming.propertyOf? c.member.name = some "name" ∧ overloaded.setterType c = getter.type :=
    ⟨_, _, _, rfl, rfl, rfl, rfl, rfl, rfl⟩
  have hground : ∀ d ∈ overloaded.schema.shownMethods overloaded.subject,
      Naming.propertyOf? d.member.name = some "name" → ∀ e ∈ d.member.declaredParams, e.vars = [] := by
    decide
  have hc : overloaded.Offers Candidate.isSetter "name" c :=
    ⟨List.mem_of_getElem? hfound, hcandidate, hdenotes⟩
  obtain ⟨setter, hset, hsetter, hgetter⟩ := Source.setter_type_eq_getter_type rfl hm hget hc htype
    (Or.inl (hground c hc.shown hdenotes))
    fun d hd hg => absurd (hground d hd.shown hd.denotes) hg
  exact ⟨m, setter, hm, hset, hsetter.trans hgetter.symm⟩

/-- Some setter takes what the getter method gives, and yet the chosen one takes another type. -/
def Source.Disagrees (s : Source) (m : Model) (n : String) : Prop :=
  ∃ getter setter c, m.readable.accessors.get? n = some (.method getter) ∧
    s.Offers Candidate.isSetter n c ∧ s.setterType c = getter.type ∧
    m.writable.accessors.get? n = some (.method setter) ∧ setter.type ≠ getter.type

theorem Source.disagrees_of_getElem? {s : Source} {m : Model} {n : String} (i : Nat)
    (h : ∃ getter setter, ∃ c : Candidate,
      m.readable.accessors.get? n = some (.method getter) ∧
      (s.schema.shownMethods s.subject)[i]? = some c ∧ c.isSetter ∧
      Naming.propertyOf? c.member.name = some n ∧ s.setterType c = getter.type ∧
      m.writable.accessors.get? n = some (.method setter) ∧ setter.type ≠ getter.type) :
    s.Disagrees m n := by
  obtain ⟨getter, setter, c, hget, hc, hs, hd, htype, hset, hdiffer⟩ := h
  exact ⟨getter, setter, c, hget, ⟨List.mem_of_getElem? hc, hs, hd⟩, htype, hset, hdiffer⟩

/-- For one property the type that fits is not the erased one, for the other a variable erases to it. -/
theorem overloaded_types_differ :
    ∃ m, build overloaded.schema overloaded.subject overloaded.options = .ok m ∧
      overloaded.Disagrees m "id" ∧ overloaded.Disagrees m "code" := by
  refine ⟨_, rfl, Source.disagrees_of_getElem? 1 ?_, Source.disagrees_of_getElem? 8 ?_⟩
  · exact ⟨_, _, _, rfl, rfl, rfl, rfl, rfl, rfl, by decide⟩
  · exact ⟨_, _, _, rfl, rfl, rfl, rfl, rfl, rfl, by decide⟩

end Model
end Introspect
