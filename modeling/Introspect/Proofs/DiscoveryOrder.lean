import Mathlib.Data.List.Rotate
import Introspect.Proofs.GetterChoice
import Introspect.Proofs.SetterChoice

/-! What the order in which methods are found can do to a property: it can make it ambiguous, and it cannot
give it another type. -/
namespace Introspect

namespace Selection

variable {s : Schema} {g g' : CandidateGroup} {w w' : Candidate}

/-- Two winners among the same getters lead each other, so that they give one type. -/
theorem getter_of_perm (htop : s.Topped) (hacyclic : s.Acyclic) (hperm : g.toList.Perm g'.toList)
    (h : getter s g.first g.rest = .chosen w) (h' : getter s g'.first g'.rest = .chosen w') :
    w.returns = w'.returns ∧ (¬ w.returns.isBool → w = w') := by
  obtain ⟨others, hgroup, hleads⟩ := getter_leads htop h
  obtain ⟨others', hgroup', hleads'⟩ := getter_leads htop h'
  have htype : w.returns = w'.returns :=
    Schema.Least.typeOf_eq htop hacyclic hperm ⟨others, hgroup, hleads.accepted⟩
      ⟨others', hgroup', hleads'.accepted⟩
  refine ⟨htype, fun hbool => (hleads.eq_of_mem ?_ htype.symm hbool).symm⟩
  exact hgroup.mem_iff.1 (hperm.mem_iff.2 (hgroup'.mem_iff.2 List.mem_cons_self))

private theorem parameter_of_met {given : Option RuntimeType} (h : setter s given g = .chosen w)
    {c : Candidate} (hc : c ∈ g.toList) (hgiven : given = some c.parameter) :
    given = some w.parameter := by
  have hsome : (g.toList.find? fun c => given = some c.parameter).isSome :=
    List.find?_isSome.2 ⟨c, hc, decide_eq_true hgiven⟩
  obtain ⟨d, hd⟩ := Option.isSome_iff_exists.1 hsome
  have hmeets := List.find?_some hd
  rw [setter_of_find? s hd] at h
  cases h
  exact of_decide_eq_true hmeets

/-- Two winners among the same setters take one type: the one that is given, where some setter takes it, and
else the least of all. -/
theorem setter_of_perm (htop : s.Topped) (hacyclic : s.Acyclic) (hperm : g.toList.Perm g'.toList)
    {given : Option RuntimeType} (h : setter s given g = .chosen w)
    (h' : setter s given g' = .chosen w') : w.parameter = w'.parameter := by
  by_cases hmet : ∃ c ∈ g.toList, given = some c.parameter
  · obtain ⟨c, hc, hgiven⟩ := hmet
    have hw := parameter_of_met h hc hgiven
    have hw' := parameter_of_met h' (hperm.mem_iff.1 hc) hgiven
    exact Option.some.inj (hw.symm.trans hw')
  · have hnone : ∀ c ∈ g.toList, given ≠ some c.parameter := fun c hc heq => hmet ⟨c, hc, heq⟩
    have hnone' : ∀ c ∈ g'.toList, given ≠ some c.parameter :=
      fun c hc => hnone c (hperm.mem_iff.2 hc)
    exact Schema.Least.typeOf_eq htop hacyclic hperm (setter_least htop hnone h)
      (setter_least htop hnone' h')

end Selection

/-- A group has the same candidates in another order, and so it comes to something there too. -/
theorem CandidateGroup.exists_map_of_perm {candidates candidates' : List Candidate}
    (hperm : candidates.Perm candidates') {accessorOf : CandidateGroup → Accessor} {a : Accessor}
    (ha : (ofList? candidates).map accessorOf = some a) :
    ∃ a', (ofList? candidates').map accessorOf = some a' := by
  obtain ⟨g, hg, -⟩ := Option.map_eq_some_iff.1 ha
  rw [ofList?_eq_some_iff.1 hg] at hperm
  have hne : candidates' ≠ [] := by
    rintro rfl
    cases hperm.eq_nil
  obtain ⟨g', hg'⟩ := exists_ofList? hne
  exact ⟨accessorOf g', by rw [hg', Option.map_some]⟩

namespace Model

open CandidateGroup Candidate

namespace Source

variable (s : Source)

/-- The accessor calls the method that is chosen of all getters of the property. -/
def GetterWins (found : List Candidate) (n : String) (winner : Candidate) (a : Accessor) : Prop :=
  ∃ g, ofList? (rivals (isGetter s.options.strictPredicates) found n) = some g ∧
    Selection.getter s.schema g.first g.rest = .chosen winner ∧
    a = s.methodAccessor winner (s.getterType winner)

def SetterWins (getters : PropertyTable) (found : List Candidate) (n : String) (winner : Candidate)
    (a : Accessor) : Prop :=
  ∃ g, ofList? (rivals isSetter found n) = some g ∧
    Selection.setter s.schema (given? getters n) g = .chosen winner ∧
    a = s.methodAccessor winner (s.setterType winner)

variable {s} {found found' : List Candidate} {n : String} {getters t t' : PropertyTable}
  {a : Accessor}

theorem getterWins_or_ambiguous (ht : s.getters found = .ok t) (ha : t.accessors.get? n = some a) :
    a.isAmbiguous ∨ ∃ winner, s.GetterWins found n winner a := by
  rw [accessors_getters ht] at ha
  obtain ⟨g, hg, rfl⟩ := Option.map_eq_some_iff.1 ha
  cases h : Selection.getter s.schema g.first g.rest with
  | chosen winner => exact Or.inr ⟨winner, g, hg, h, by rw [getterOf, h, getterAccessor]⟩
  | conflict first second => exact Or.inl (by rw [getterOf, h]; rfl)

theorem setterWins_or_ambiguous (ht : s.setters found getters = .ok t)
    (ha : t.accessors.get? n = some a) : a.isAmbiguous ∨ ∃ winner, s.SetterWins getters found n winner a := by
  rw [accessors_setters ht] at ha
  obtain ⟨g, hg, rfl⟩ := Option.map_eq_some_iff.1 ha
  cases h : Selection.setter s.schema (given? getters n) g with
  | chosen winner => exact Or.inr ⟨winner, g, hg, h, by rw [setterOf, h, setterAccessor]⟩
  | conflict first second => exact Or.inl (by rw [setterOf, h]; rfl)

theorem GetterWins.eq_of_perm (htop : s.schema.Topped) (hacyclic : s.schema.Acyclic)
    (hperm : (rivals (isGetter s.options.strictPredicates) found n).Perm
      (rivals (isGetter s.options.strictPredicates) found' n)) {w w' : Candidate} {a' : Accessor}
    (h : s.GetterWins found n w a) (h' : s.GetterWins found' n w' a') :
    w.returns = w'.returns ∧ (¬ w.returns.isBool → w = w') := by
  obtain ⟨g, hg, hw, _⟩ := h
  obtain ⟨g', hg', hw', _⟩ := h'
  rw [ofList?_eq_some_iff.1 hg, ofList?_eq_some_iff.1 hg'] at hperm
  exact Selection.getter_of_perm htop hacyclic hperm hw hw'

theorem SetterWins.eq_of_perm (htop : s.schema.Topped) (hacyclic : s.schema.Acyclic)
    (hperm : (rivals isSetter found n).Perm (rivals isSetter found' n)) {w w' : Candidate}
    {a' : Accessor} (h : s.SetterWins getters found n w a) (h' : s.SetterWins getters found' n w' a') :
    w.parameter = w'.parameter := by
  obtain ⟨g, hg, hw, _⟩ := h
  obtain ⟨g', hg', hw', _⟩ := h'
  rw [ofList?_eq_some_iff.1 hg, ofList?_eq_some_iff.1 hg'] at hperm
  exact Selection.setter_of_perm htop hacyclic hperm hw hw'

/-- The order in which methods are found does not decide what type a property has. A property that one order
resolves is there in every other order, and where it is not ambiguous it has the same type, and the same getter
unless the type is `bool`. -/
theorem resolved_of_perm (s : Source) (htop : s.schema.Topped) (hacyclic : s.schema.Acyclic)
    (found found' : List Candidate) (n : String) :
    ((rivals (isGetter s.options.strictPredicates) found n).Perm
        (rivals (isGetter s.options.strictPredicates) found' n) →
      ∃ t t', s.getters found = .ok t ∧ s.getters found' = .ok t' ∧
        ∀ a, t.accessors.get? n = some a → ¬ a.isAmbiguous →
          ∃ w, s.GetterWins found n w a ∧ ∃ a', t'.accessors.get? n = some a' ∧
            (a'.isAmbiguous ∨ ∃ w', s.GetterWins found' n w' a' ∧
              w.returns = w'.returns ∧ (¬ w.returns.isBool → w = w'))) ∧
      ∀ getters, (rivals isSetter found n).Perm (rivals isSetter found' n) →
        ∃ t t', s.setters found getters = .ok t ∧ s.setters found' getters = .ok t' ∧
          ∀ a, t.accessors.get? n = some a → ¬ a.isAmbiguous →
            ∃ w, s.SetterWins getters found n w a ∧ ∃ a', t'.accessors.get? n = some a' ∧
              (a'.isAmbiguous ∨ ∃ w', s.SetterWins getters found' n w' a' ∧
                w.parameter = w'.parameter) := by
  refine ⟨fun hperm => ?_, fun getters hperm => ?_⟩
  · obtain ⟨t, ht, _⟩ := s.getters_consistent found
    obtain ⟨t', ht', _⟩ := s.getters_consistent found'
    refine ⟨t, t', ht, ht', fun a ha hresolved => ?_⟩
    obtain ⟨w, hw⟩ := (getterWins_or_ambiguous ht ha).resolve_left hresolved
    obtain ⟨a', ha'⟩ := exists_map_of_perm hperm ((accessors_getters ht n).symm.trans ha)
    rw [← accessors_getters ht'] at ha'
    refine ⟨w, hw, a', ha', (getterWins_or_ambiguous ht' ha').imp_right ?_⟩
    rintro ⟨w', hw'⟩
    exact ⟨w', hw', hw.eq_of_perm htop hacyclic hperm hw'⟩
  · obtain ⟨t, ht, _⟩ := s.setters_consistent found getters
    obtain ⟨t', ht', _⟩ := s.setters_consistent found' getters
    refine ⟨t, t', ht, ht', fun a ha hresolved => ?_⟩
    obtain ⟨w, hw⟩ := (setterWins_or_ambiguous ht ha).resolve_left hresolved
    obtain ⟨a', ha'⟩ := exists_map_of_perm hperm ((accessors_setters ht n).symm.trans ha)
    rw [← accessors_setters ht'] at ha'
    refine ⟨w, hw, a', ha', (setterWins_or_ambiguous ht' ha').imp_right ?_⟩
    rintro ⟨w', hw'⟩
    exact ⟨w', hw', hw.eq_of_perm htop hacyclic hperm hw'⟩

end Source

/-- A class below a superclass and an interface, with a getter and a setter for each of these types. -/
def joining : List Schema.Operation := [
  .reopen Schema.baseClass {} "Base",
  .reopen Schema.storeClass {} "Store",
  .declare Schema.storeClass .asInterface,
  .reopen Schema.derivedClass {} "Derived",
  .declare Schema.derivedClass (.superclass { base := some Schema.baseClass }),
  .declare Schema.derivedClass (.interface { base := some Schema.storeClass }),
  .declare Schema.derivedClass (.method
    { name := "getPart", declaredReturns := some (.plain (.of Schema.derivedClass)), body := .nothing }),
  .declare Schema.derivedClass (.method
    { name := "setPart", params := [.object], declaredParams := [.plain (.of Schema.derivedClass)],
      body := .nothing }),
  .declare Schema.derivedClass (.method
    { name := "getPart", declaredReturns := some (.plain (.of Schema.baseClass)), body := .nothing }),
  .declare Schema.derivedClass (.method
    { name := "setPart", params := [.object], declaredParams := [.plain (.of Schema.baseClass)],
      body := .nothing }),
  .declare Schema.derivedClass (.method
    { name := "getPart", declaredReturns := some (.plain (.of Schema.storeClass)), body := .nothing }),
  .declare Schema.derivedClass (.method
    { name := "setPart", params := [.object], declaredParams := [.plain (.of Schema.storeClass)],
      body := .nothing })]

def joined : Source where
  schema := .run joining
  subject := Schema.derivedClass
  options := {}

/-- Found in this order, the class is tried before its superclass and its interface. -/
def joinedMethods : List Candidate := joined.schema.shownMethods joined.subject

theorem resolved_of_perm_joined :
    joined.schema.Topped ∧ joined.schema.Acyclic ∧
    (rivals (isGetter joined.options.strictPredicates) joinedMethods "part").Perm
      (rivals (isGetter joined.options.strictPredicates) (joinedMethods.rotate 4) "part") ∧
    (rivals isSetter joinedMethods "part").Perm (rivals isSetter (joinedMethods.rotate 4) "part") ∧
    (∃ a a' w w', joined.GetterWins joinedMethods "part" w a ∧
      joined.GetterWins (joinedMethods.rotate 4) "part" w' a' ∧ w.returns = w'.returns ∧
      (¬ w.returns.isBool → w = w')) ∧
    ∃ a a' w w', joined.SetterWins ∅ joinedMethods "part" w a ∧
      joined.SetterWins ∅ (joinedMethods.rotate 4) "part" w' a' ∧ w.parameter = w'.parameter := by
  have htop : joined.schema.Topped := Schema.topped_run (by decide) (by decide)
  have hacyclic : joined.schema.Acyclic := Schema.acyclic_of_rank Schema.classRank (by decide)
  have hperm (isCandidate : Candidate → Bool) :
      (rivals isCandidate joinedMethods "part").Perm
        (rivals isCandidate (joinedMethods.rotate 4) "part") :=
    ((List.rotate_perm joinedMethods 4).symm.filter _).filter _
  obtain ⟨hgetters, hsetters⟩ := Source.resolved_of_perm joined htop hacyclic joinedMethods
    (joinedMethods.rotate 4) "part"
  refine ⟨htop, hacyclic, hperm _, hperm _, ?_, ?_⟩
  · obtain ⟨u, u', a, a', hu, hu', ha, ha', hresolved, hresolved'⟩ : ∃ u u' a a',
        joined.getters joinedMethods = .ok u ∧ joined.getters (joinedMethods.rotate 4) = .ok u' ∧
        u.accessors.get? "part" = some a ∧ u'.accessors.get? "part" = some a' ∧
        ¬ a.isAmbiguous ∧ ¬ a'.isAmbiguous :=
      ⟨_, _, _, _, rfl, rfl, rfl, rfl, by decide, by decide⟩
    obtain ⟨t, t', ht, ht', hagree⟩ := hgetters (hperm _)
    obtain rfl := Except.ok.inj (hu.symm.trans ht)
    obtain rfl := Except.ok.inj (hu'.symm.trans ht')
    obtain ⟨w, hw, b, hb, hagree⟩ := hagree a ha hresolved
    obtain rfl := Option.some.inj (ha'.symm.trans hb)
    obtain ⟨w', hw', hsame⟩ := hagree.resolve_left hresolved'
    exact ⟨a, a', w, w', hw, hw', hsame⟩
  · obtain ⟨u, u', a, a', hu, hu', ha, ha', hresolved, hresolved'⟩ : ∃ u u' a a',
        joined.setters joinedMethods ∅ = .ok u ∧ joined.setters (joinedMethods.rotate 4) ∅ = .ok u' ∧
        u.accessors.get? "part" = some a ∧ u'.accessors.get? "part" = some a' ∧
        ¬ a.isAmbiguous ∧ ¬ a'.isAmbiguous :=
      ⟨_, _, _, _, rfl, rfl, rfl, rfl, by decide, by decide⟩
    obtain ⟨t, t', ht, ht', hagree⟩ := hsetters ∅ (hperm _)
    obtain rfl := Except.ok.inj (hu.symm.trans ht)
    obtain rfl := Except.ok.inj (hu'.symm.trans ht')
    obtain ⟨w, hw, b, hb, hagree⟩ := hagree a ha hresolved
    obtain rfl := Option.some.inj (ha'.symm.trans hb)
    obtain ⟨w', hw', hsame⟩ := hagree.resolve_left hresolved'
    exact ⟨a, a', w, w', hw, hw', hsame⟩

-- Where the superclass and the interface come first, the class is never reached.
example : ∃ t, joined.getters joinedMethods.reverse = .ok t ∧
    (t.accessors.get? "part").map Accessor.isAmbiguous = some true := ⟨_, rfl, rfl⟩

end Model
end Introspect
