import Introspect.Proofs.Arguments
import Introspect.Proofs.Rivals
import Introspect.Proofs.TypeAgreement

/-! Which setter of a property is chosen: the first that takes just what the getter method gives, or else one
that takes the most specific type. Of several that take it the last one is chosen. -/
namespace Introspect

/-- The setter takes just what the getter method gives. -/
def Candidate.Meets (getter? : Option Accessor) (c : Candidate) : Prop :=
  ∃ getter, getter? = some (.method getter) ∧ c.parameter = getter.type

namespace Selection

variable (s : Schema)

/-- What the comparison of two setters can come to, and why. -/
theorem weigh_cases (best c : Candidate) :
    weigh s (.chosen best) c = .chosen c ∧ s.accepts best.parameter c.parameter ∨
    weigh s (.chosen best) c = .chosen best ∧ ¬ s.accepts best.parameter c.parameter ∧
      s.accepts c.parameter best.parameter ∨
    weigh s (.chosen best) c = .conflict best c ∧ ¬ s.accepts best.parameter c.parameter ∧
      ¬ s.accepts c.parameter best.parameter := by
  by_cases hreplace : s.accepts best.parameter c.parameter
  · simp [weigh, hreplace]
  · by_cases hkeep : s.accepts c.parameter best.parameter <;> simp [weigh, hreplace, hkeep]

theorem weigh_fair : Fair fun best c => weigh s (.chosen best) c := by
  intro best c
  rcases weigh_cases s best c with ⟨h, _⟩ | ⟨h, _⟩ | ⟨h, _⟩
  · exact Or.inr (Or.inl h)
  · exact Or.inl h
  · exact Or.inr (Or.inr h)

/-- A setter that takes a more specific type than the best takes a more specific one than all others. -/
theorem weigh_keeps_least (htop : s.Topped) :
    Keeps (fun best c => weigh s (.chosen best) c)
      fun best others => ∀ c ∈ others, s.accepts c.parameter best.parameter := by
  intro best others c hleast
  rcases weigh_cases s best c with ⟨h, haccepts⟩ | ⟨h, _, haccepts⟩ | ⟨h, _⟩
  · refine Or.inr (Or.inl ⟨h, List.forall_mem_cons.2 ⟨haccepts, fun d hd => ?_⟩⟩)
    exact Schema.accepts_trans htop (hleast d hd) haccepts
  · exact Or.inl ⟨h, List.forall_mem_cons.2 ⟨haccepts, hleast⟩⟩
  · exact Or.inr (Or.inr h)

variable {s} {given : Option RuntimeType} {g : CandidateGroup} {first second winner : Candidate}

private theorem setterAfter_conflict (rest : List Candidate)
    (hnone : ∀ c ∈ rest, given ≠ some c.parameter) :
    setterAfter s given (.conflict first second) rest = .conflict first second := by
  induction rest with
  | nil => rfl
  | cons c rest ih =>
    obtain ⟨hc, hrest⟩ := List.forall_mem_cons.1 hnone
    rw [setterAfter, if_neg hc, weigh]
    exact ih hrest

private theorem setterAfter_eq_reduce (best : Candidate) (rest : List Candidate)
    (hnone : ∀ c ∈ rest, given ≠ some c.parameter) :
    setterAfter s given (.chosen best) rest = reduce (fun best c => weigh s (.chosen best) c) best rest := by
  induction rest generalizing best with
  | nil => rfl
  | cons c rest ih =>
    obtain ⟨hc, hrest⟩ := List.forall_mem_cons.1 hnone
    rw [setterAfter, if_neg hc, reduce]
    cases weigh s (.chosen best) c with
    | chosen winner => exact ih winner hrest
    | conflict first second => exact setterAfter_conflict rest hrest

/-- Where no setter takes just what is given, setters are compared one after another. -/
theorem setter_eq_reduce (hnone : ∀ c ∈ g.toList, given ≠ some c.parameter) :
    setter s given g = reduce (fun best c => weigh s (.chosen best) c) g.first g.rest := by
  obtain ⟨hfirst, hrest⟩ := List.forall_mem_cons.1 hnone
  rw [setter, if_neg hfirst]
  exact setterAfter_eq_reduce g.first g.rest hrest

theorem setter_least (htop : s.Topped) (hnone : ∀ c ∈ g.toList, given ≠ some c.parameter)
    (h : setter s given g = .chosen winner) : s.Least Candidate.parameter g.toList winner := by
  rw [setter_eq_reduce hnone] at h
  exact reduce_chosen (weigh_keeps_least s htop) (List.forall_mem_nil _) h

theorem setters_clash (hnone : ∀ c ∈ g.toList, given ≠ some c.parameter)
    (h : setter s given g = .conflict first second) :
    [first, second].Sublist g.toList ∧ ¬ s.accepts first.parameter second.parameter ∧
      ¬ s.accepts second.parameter first.parameter := by
  rw [setter_eq_reduce hnone] at h
  obtain ⟨hpair, hconflict⟩ := reduce_conflict (weigh_fair s) h
  refine ⟨hpair, ?_⟩
  rcases weigh_cases s first second with ⟨h, _⟩ | ⟨h, _⟩ | ⟨_, hclash⟩
  · cases h.symm.trans hconflict
  · cases h.symm.trans hconflict
  · exact hclash

/-- No setter found after the winner takes the same type, for it would have replaced the winner. -/
theorem setter_last (hnone : ∀ c ∈ g.toList, given ≠ some c.parameter)
    (h : setter s given g = .chosen winner) :
    ∃ before after, g.toList = before ++ winner :: after ∧
      ∀ c ∈ after, c.parameter ≠ winner.parameter := by
  rw [setter_eq_reduce hnone] at h
  obtain ⟨before, after, hgroup, hafter⟩ := reduce_stays (weigh_fair s) h
  refine ⟨before, after, hgroup, fun c hc heq => ?_⟩
  obtain ⟨hkept, hnot⟩ := hafter c hc
  rcases weigh_cases s winner c with ⟨h, _⟩ | ⟨_, hrefused, haccepts⟩ | ⟨h, _⟩
  · exact hnot h
  · rw [heq] at hrefused haccepts
    exact hrefused haccepts
  · cases h.symm.trans hkept

end Selection

namespace Model

open CandidateGroup Candidate

namespace Source

variable (s : Source)

/-- What the setters of a property come to. The first one that takes just what the getter gives ends the
search. Without such a setter either one of them takes the least type, or two of them clash and are reported,
and the first of these gives the type. The type is that of the one parameter, as the subject sees it. -/
inductive SetterVerdict (getter? : Option Accessor) (rivals : List Candidate) : Accessor → Prop
  | met {before after : List Candidate} {c : Candidate} {type : RuntimeType}
      (hrivals : rivals = before ++ c :: after) (hmeets : c.Meets getter?)
      (hbefore : ∀ d ∈ before, ¬ d.Meets getter?) (htype : s.schema.paramsAt c.member s.subject = [type]) :
      SetterVerdict getter? rivals (s.methodAccessor c type)
  | chosen {winner : Candidate} {type : RuntimeType} (hnone : ∀ c ∈ rivals, ¬ c.Meets getter?)
      (hleast : s.schema.Least parameter rivals winner)
      (htype : s.schema.paramsAt winner.member s.subject = [type]) :
      SetterVerdict getter? rivals (s.methodAccessor winner type)
  | conflict {first second : Candidate} {ambiguity : Ambiguity} {type : RuntimeType}
      (hnone : ∀ c ∈ rivals, ¬ c.Meets getter?) (hpair : [first, second].Sublist rivals)
      (hfirst : ¬ s.schema.accepts first.parameter second.parameter)
      (hsecond : ¬ s.schema.accepts second.parameter first.parameter)
      (ha : ambiguity.a = s.schema.typeName first.parameter)
      (hb : ambiguity.b = s.schema.typeName second.parameter)
      (htype : s.schema.paramsAt first.member s.subject = [type]) :
      SetterVerdict getter? rivals (.ambiguous ambiguity type)

/-- Each property that some of the methods found are setters of is listed once, with the setter they come
to and its type. -/
def DecidesSetters (getters : PropertyTable) (found : List Candidate) (t : PropertyTable) : Prop :=
  ∀ n, rivals isSetter found n ≠ [] → t.names.count n = 1 ∧
    ∃ a, t.accessors.get? n = some a ∧ t.types.get? n = some a.type ∧
      s.SetterVerdict (getters.accessors.get? n) (rivals isSetter found n) a

variable {s} {n : String} {getters : PropertyTable}

theorem given?_recordAll {groups : Table String CandidateGroup} (h : groups.keys.Nodup)
    {type : RuntimeType} :
    given? (.recordAll s.getterOf groups) n = some type ↔
      ∃ getter, (PropertyTable.recordAll s.getterOf groups).accessors.get? n = some (.method getter) ∧
        type = getter.type := by
  unfold given?
  rw [PropertyTable.accessors_recordAll _ _ h, PropertyTable.types_recordAll _ _ h]
  cases groups.get? n with
  | none => simp
  | some g =>
    simp only [Option.map_some, Option.any_some, Option.some.injEq]
    obtain ⟨c, _, hmethod | ⟨ambiguity, hambiguous⟩⟩ := s.getterOf_mem n g
    · rw [hmethod]
      constructor
      · intro h
        exact ⟨_, rfl, (Option.some.inj h).symm⟩
      · rintro ⟨getter, hgetter, rfl⟩
        rw [hgetter]
        rfl
    · simp [hambiguous, Accessor.isAmbiguous]

/-- A setter meets the getter of the methods just where its type is the one given. -/
theorem meets_recordAll {groups : Table String CandidateGroup} (h : groups.keys.Nodup) (c : Candidate) :
    given? (.recordAll s.getterOf groups) n = some c.parameter ↔
      c.Meets ((PropertyTable.recordAll s.getterOf groups).accessors.get? n) :=
  given?_recordAll h

/-- A getter that a field stands in for is met by no setter. -/
theorem Built.meets_iff {getGroups setGroups : Table String CandidateGroup} {m : Model}
    (h : s.Built getGroups setGroups m) (c : Candidate) :
    c.Meets ((PropertyTable.recordAll s.getterOf getGroups).accessors.get? n) ↔
      c.Meets (m.readable.accessors.get? n) := by
  have hmethod (getter : MethodAccessor) :
      (PropertyTable.recordAll s.getterOf getGroups).accessors.get? n = some (.method getter) ↔
        m.readable.accessors.get? n = some (.method getter) := by
    constructor
    · intro hget
      rw [PropertyTable.accessors_recordAll _ _ h.getters.nodup] at hget
      rw [h.readable, hget, Option.some_or]
    · intro hget
      obtain ⟨g, hg, hgetter⟩ := h.group_of_method hget
      rw [PropertyTable.accessors_recordAll _ _ h.getters.nodup, hg, Option.map_some, hgetter]
  simp only [Meets, hmethod]

theorem paramsAt_of_isSetter {c : Candidate} (h : isSetter c) :
    s.schema.paramsAt c.member s.subject = [s.setterType c] := by
  obtain ⟨type, htype⟩ := s.schema.exists_paramsAt_of_isSetter h s.subject
  rw [setterType, htype, List.headD_cons]

theorem setterOf_verdict (htop : s.schema.Topped) {getter? : Option Accessor}
    (hmeets : ∀ c : Candidate, given? getters n = some c.parameter ↔ c.Meets getter?)
    {g : CandidateGroup} (hsetters : ∀ c ∈ g.toList, isSetter c) :
    s.SetterVerdict getter? g.toList (s.setterOf getters n g) := by
  have htypes (c : Candidate) (hc : c ∈ g.toList) := s.paramsAt_of_isSetter (hsetters c hc)
  unfold setterOf
  cases hfind : g.toList.find? fun c => given? getters n = some c.parameter with
  | some c =>
    obtain ⟨hc, before, after, hgroup, hbefore⟩ := List.find?_eq_some_iff_append.1 hfind
    rw [Selection.setter_of_find? s.schema hfind]
    refine .met hgroup ((hmeets c).1 (of_decide_eq_true hc)) (fun d hd hd' => ?_)
      (htypes c (List.mem_of_find?_eq_some hfind))
    have hnot := hbefore d hd
    simp [(hmeets d).2 hd'] at hnot
  | none =>
    have hgiven : ∀ c ∈ g.toList, given? getters n ≠ some c.parameter := by
      simpa using hfind
    have hnone : ∀ c ∈ g.toList, ¬ c.Meets getter? := fun c hc h => hgiven c hc ((hmeets c).2 h)
    cases h : Selection.setter s.schema (given? getters n) g with
    | chosen winner =>
      obtain ⟨others, hothers, hleast⟩ := Selection.setter_least htop hgiven h
      exact .chosen hnone ⟨others, hothers, hleast⟩ (htypes winner (hothers.mem_iff.2 List.mem_cons_self))
    | conflict first second =>
      obtain ⟨hpair, hfirst, hsecond⟩ := Selection.setters_clash hgiven h
      exact .conflict hnone hpair hfirst hsecond rfl rfl (htypes first (hpair.subset List.mem_cons_self))

theorem decidesSetters_of_accessors (htop : s.schema.Topped) {found : List Candidate}
    {readable t : PropertyTable} (ht : t.Consistent Accessor.Writes)
    (hmeets : ∀ n (c : Candidate),
      given? getters n = some c.parameter ↔ c.Meets (readable.accessors.get? n))
    (h : ∀ n g, ofList? (rivals isSetter found n) = some g →
      t.accessors.get? n = some (s.setterOf getters n g)) : s.DecidesSetters readable found t := by
  intro n hne
  obtain ⟨g, hg⟩ := exists_ofList? hne
  have ha := h n g hg
  obtain ⟨honce, htype⟩ := ht.listed ha
  refine ⟨honce, _, ha, htype, ?_⟩
  have hrivals := ofList?_eq_some_iff.1 hg
  rw [hrivals]
  exact setterOf_verdict htop (hmeets n) fun c hc => isCandidate_of_mem_rivals (hrivals ▸ hc)

/-- Whatever the getters come to, and in whatever order setters are found, the setter of each property is the
first that takes just what the getter gives, or else a most specific one, or two of its setters conflict. So it
is for the methods that a type shows, and its fields change nothing. -/
theorem setters_most_specific (s : Source) (htop : s.schema.Topped) :
    (∀ methods found, ∃ getters t, s.getters methods = .ok getters ∧
      s.setters found getters = .ok t ∧ s.DecidesSetters getters found t) ∧
      ∃ m, build s.schema s.subject s.options = .ok m ∧
        s.DecidesSetters m.readable (s.schema.shownMethods s.subject) m.writable := by
  refine ⟨fun methods found => ?_, ?_⟩
  · obtain ⟨groups, hgroups, hgetters⟩ := s.getters_eq methods
    obtain ⟨t, ht, hconsistent⟩ := s.setters_consistent found (.recordAll s.getterOf groups)
    refine ⟨_, t, hgetters, ht, decidesSetters_of_accessors htop hconsistent
      (fun n => meets_recordAll hgroups.nodup) fun n g hg => ?_⟩
    rw [accessors_setters ht, hg, Option.map_some]
  · obtain ⟨m, hm, _, hwrites⟩ := s.exists_build
    obtain ⟨getGroups, setGroups, hbuilt⟩ := s.built hm
    refine ⟨m, hm, decidesSetters_of_accessors htop hwrites
      (fun n c => (meets_recordAll hbuilt.getters.nodup c).trans (hbuilt.meets_iff c))
      fun n g hg => hbuilt.writable_of_rivals hg⟩

/-- A method that sets a property is one of its setters. -/
theorem Built.rivals_of_method {getGroups setGroups : Table String CandidateGroup} {m : Model}
    (h : s.Built getGroups setGroups m) {setter : MethodAccessor}
    (hset : m.writable.accessors.get? n = some (.method setter)) :
    ∃ g, ofList? (rivals isSetter (s.schema.shownMethods s.subject) n) = some g ∧
      s.setterOf (.recordAll s.getterOf getGroups) n g = .method setter := by
  rw [h.writable] at hset
  cases hg : setGroups.get? n with
  | some g => exact ⟨g, (h.setters.get?_eq n).symm.trans hg, by simpa [hg] using hset⟩
  | none =>
    rw [hg, Option.map_none, Option.none_or] at hset
    obtain ⟨f, _, hf⟩ := List.exists_of_findSome?_eq_some hset
    unfold offer at hf
    split_ifs at hf
    obtain ⟨use, _, hfield⟩ := Option.map_eq_some_iff.1 hf
    cases hfield

end Source

/-- A class with overloaded setters: of whether it is open, which the getter tells; of an item, which is anything
or of a variable that texts bound; and of a code, which is of that variable or a number. -/
def shelving : List Schema.Operation := [
  .reopen Schema.baseClass {} "Base",
  .declare Schema.baseClass (.typeParameter { name := "T", bound := .plain (.of (.builtIn .string)) }),
  .declare Schema.baseClass (.method
    { name := "setItem", params := [.object], declaredParams := [.var "T"], body := .nothing }),
  .declare Schema.baseClass (.method
    { name := "setCode", params := [.object], declaredParams := [.var "T"], body := .nothing }),
  .declare Schema.baseClass (.method { name := "setCode", params := [.int], body := .nothing }),
  .reopen Schema.storeClass {} "Store",
  .declare Schema.storeClass (.superclass
    { base := some Schema.baseClass, args := [.plain (.of Schema.storeClass)] }),
  .declare Schema.storeClass (.method { name := "isOpen", result := some .bool, body := .nothing }),
  .declare Schema.storeClass (.method { name := "setOpen", params := [.int], body := .nothing }),
  .declare Schema.storeClass (.method { name := "setOpen", params := [.string], body := .nothing }),
  .declare Schema.storeClass (.method { name := "setOpen", params := [.bool], body := .nothing }),
  .declare Schema.storeClass (.method { name := "setOpen", params := [.long], body := .nothing }),
  .declare Schema.storeClass (.method { name := "setItem", params := [.object], body := .nothing })]

def shelved : Source where
  schema := .run shelving
  subject := Schema.storeClass
  options := {}

/-- The variable is weighed as a text, and the subject sees another type in its place. -/
theorem setters_most_specific_shelved : shelved.schema.Topped ∧
    ∃ m, build shelved.schema shelved.subject shelved.options = .ok m ∧
      shelved.DecidesSetters m.readable (shelved.schema.shownMethods shelved.subject) m.writable ∧
      (["open", "item", "code"].map fun n =>
        (rivals isSetter (shelved.schema.shownMethods shelved.subject) n).length) = [4, 2, 2] ∧
      (m.writable.accessors.get? "open").map Accessor.type = some (.of (.builtIn .bool)) ∧
      (m.writable.accessors.get? "item").map Accessor.type = some (.of Schema.storeClass) ∧
      (m.writable.accessors.get? "code").map Accessor.isAmbiguous = some true ∧
      m.writable.types.get? "code" = some (.of Schema.storeClass) := by
  have htop : shelved.schema.Topped := Schema.topped_run (by decide) (by decide)
  obtain ⟨m, hm, hdecides⟩ := (Source.setters_most_specific shelved htop).2
  obtain ⟨m', hm', hopen, hitem, hcode, htype⟩ : ∃ m',
      build shelved.schema shelved.subject shelved.options = .ok m' ∧
      (m'.writable.accessors.get? "open").map Accessor.type = some (.of (.builtIn .bool)) ∧
      (m'.writable.accessors.get? "item").map Accessor.type = some (.of Schema.storeClass) ∧
      (m'.writable.accessors.get? "code").map Accessor.isAmbiguous = some true ∧
      m'.writable.types.get? "code" = some (.of Schema.storeClass) :=
    ⟨_, rfl, by decide, by decide, by decide, by decide⟩
  obtain rfl := Except.ok.inj (hm'.symm.trans hm)
  exact ⟨htop, m', hm, hdecides, by decide, hopen, hitem, hcode, htype⟩

/-- Where no setter takes just what the getter gives, the winner is the last one found of those that take its
type. -/
theorem last_of_equal_setters {s : Source} {m : Model} (hm : build s.schema s.subject s.options = .ok m)
    {n : String} {setter : MethodAccessor} (hset : m.writable.accessors.get? n = some (.method setter))
    (hnone : ∀ c ∈ rivals isSetter (s.schema.shownMethods s.subject) n,
      ¬ c.Meets (m.readable.accessors.get? n)) :
    ∃ before winner after type,
      rivals isSetter (s.schema.shownMethods s.subject) n = before ++ winner :: after ∧
      s.schema.paramsAt winner.member s.subject = [type] ∧
      .method setter = s.methodAccessor winner type ∧ ∀ c ∈ after, c.parameter ≠ winner.parameter := by
  obtain ⟨getGroups, setGroups, hbuilt⟩ := s.built hm
  obtain ⟨g, hg, hsetter⟩ := hbuilt.rivals_of_method hset
  have hrivals := ofList?_eq_some_iff.1 hg
  rw [hrivals] at hnone ⊢
  have hgiven : ∀ c ∈ g.toList, Source.given? (.recordAll s.getterOf getGroups) n ≠ some c.parameter :=
    fun c hc h => hnone c hc ((hbuilt.meets_iff c).1 ((Source.meets_recordAll hbuilt.getters.nodup c).1 h))
  unfold Source.setterOf at hsetter
  cases h : Selection.setter s.schema (Source.given? (.recordAll s.getterOf getGroups) n) g with
  | chosen winner =>
    rw [h] at hsetter
    obtain ⟨before, after, hgroup, hafter⟩ := Selection.setter_last hgiven h
    have hwinner : winner ∈ g.toList := hgroup ▸ List.mem_append_right _ List.mem_cons_self
    have htype := s.paramsAt_of_isSetter (isCandidate_of_mem_rivals (hrivals ▸ hwinner))
    exact ⟨before, winner, after, _, hgroup, htype, hsetter.symm, hafter⟩
  | conflict first second =>
    rw [h] at hsetter
    cases hsetter

/-- A class that has a setter of its own with another result than the setter of its superclass. -/
def redeclaring : List Schema.Operation := [
  .reopen Schema.baseClass {} "Base",
  .declare Schema.baseClass (.method { name := "setName", params := [.string], body := .store ["base"] }),
  .reopen Schema.derivedClass {} "Derived",
  .declare Schema.derivedClass (.superclass
    { base := some Schema.baseClass, upcast := some "Derived>Base" }),
  .declare Schema.derivedClass (.method
    { name := "setName", result := some .int, params := [.string], body := .store ["derived"] })]

def redeclared : Source where
  schema := .run redeclaring
  subject := Schema.derivedClass
  options := {}

theorem last_of_equal_setters_redeclared : ∃ m setter before winner after type,
    build redeclared.schema redeclared.subject redeclared.options = .ok m ∧
    m.writable.accessors.get? "name" = some (.method setter) ∧ m.readable.accessors.get? "name" = none ∧
    rivals isSetter (redeclared.schema.shownMethods redeclared.subject) "name" =
      before ++ winner :: after ∧
    redeclared.schema.paramsAt winner.member redeclared.subject = [type] ∧
    .method setter = redeclared.methodAccessor winner type ∧
    ∀ c ∈ after, c.parameter ≠ winner.parameter := by
  obtain ⟨m, setter, hm, hset, hnone⟩ : ∃ m setter,
      build redeclared.schema redeclared.subject redeclared.options = .ok m ∧
      m.writable.accessors.get? "name" = some (.method setter) ∧
      m.readable.accessors.get? "name" = none := ⟨_, _, rfl, rfl, rfl⟩
  have hmeets : ∀ c ∈ rivals isSetter (redeclared.schema.shownMethods redeclared.subject) "name",
      ¬ c.Meets (m.readable.accessors.get? "name") := by
    rintro c - ⟨getter, hgetter, -⟩
    cases hnone.symm.trans hgetter
  obtain ⟨before, winner, after, type, hrivals, htype, hsetter, hafter⟩ := last_of_equal_setters hm hset hmeets
  exact ⟨m, setter, before, winner, after, type, hm, hset, hnone, hrivals, htype, hsetter, hafter⟩

/-- The setter of the class itself is found first and takes the same type, and the one of its superclass is
chosen. -/
theorem redeclared_setter_passed_over : ∃ m setter own inherited,
    build redeclared.schema redeclared.subject redeclared.options = .ok m ∧
    rivals isSetter (redeclared.schema.shownMethods redeclared.subject) "name" = [own, inherited] ∧
    own.owner = redeclared.subject ∧ inherited.owner = Schema.baseClass ∧
    own.parameter = inherited.parameter ∧ m.readable.accessors.get? "name" = none ∧
    m.writable.accessors.get? "name" = some (.method setter) ∧
    .method setter = redeclared.methodAccessor inherited (.of (.builtIn .string)) ∧
    setter.declaring = "Base" ∧ redeclared.declaringName own.member.declaring = "Derived" := by
  exact ⟨_, _, _, _, rfl, rfl, rfl, rfl, rfl, rfl, rfl, rfl, by decide, by decide⟩

end Model
end Introspect
