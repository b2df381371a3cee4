import Introspect.Proofs.Consistency
import Introspect.Proofs.Lineage
import Introspect.Proofs.Runs

/-! The properties of a type are those that its methods and its fields offer. A method comes before every
field, and of the fields the first one comes before the others. -/
namespace Introspect.Model

namespace Source

variable (s : Source)

/-- A candidate for a property among the methods that the subject shows. -/
structure Offers (isCandidate : Candidate → Bool) (n : String) (c : Candidate) : Prop where
  shown : c ∈ s.schema.shownMethods s.subject
  candidate : isCandidate c
  denotes : Naming.propertyOf? c.member.name = some n

/-- One side of a model, where methods are candidates and fields are usable by the rules of that side. -/
structure Complete (isCandidate : Candidate → Bool) (typeOf : Candidate → RuntimeType)
    (isUsable : Field → Bool) (useOf : Field → FieldUse) (t : PropertyTable) : Prop where
  mem_names_iff : ∀ n, n ∈ t.names ↔ Naming.isPropertyName n ∧
    ((∃ c, s.Offers isCandidate n c) ∨
      ∃ route owner, s.schema.Outward s.subject route owner ∧
        ∃ f ∈ (s.schema.describe owner).fields, f.name = n ∧ isUsable f)
  method_first : ∀ n, Naming.isPropertyName n → (∃ c, s.Offers isCandidate n c) →
    ∃ c, s.Offers isCandidate n c ∧
      (t.accessors.get? n = some (s.methodAccessor c (typeOf c)) ∨
        ∃ ambiguity, t.accessors.get? n = some (.ambiguous ambiguity (typeOf c)))
  first_field : ∀ n ∈ t.names, (¬ ∃ c, s.Offers isCandidate n c) →
    ∃ f, s.schema.FirstField (fun g => g.name = n && isUsable g) s.subject f ∧
      t.accessors.get? n = some (s.fieldAccessor f (useOf f.member))

/-- The group of a property holds all candidates for it that are shown. -/
theorem mem_group_iff {isCandidate : Candidate → Bool} {groups : Table String CandidateGroup}
    (h : CandidateGroup.Groups ((s.schema.shownMethods s.subject).filter isCandidate) groups)
    {n : String} (hn : Naming.isPropertyName n) {g : CandidateGroup} (hg : groups.get? n = some g)
    (c : Candidate) : c ∈ g.toList ↔ s.Offers isCandidate n c := by
  rw [h.toList_eq hg, List.mem_filter, List.mem_filter]
  constructor
  · intro hm
    obtain ⟨⟨hs, hc⟩, hd⟩ := hm
    simp only [Candidate.denotes, Bool.and_eq_true, decide_eq_true_eq] at hd
    exact ⟨hs, hc, hd.1⟩
  · intro hoff
    obtain ⟨hs, hc, hd⟩ := hoff
    exact ⟨⟨hs, hc⟩, by simp [Candidate.denotes, hd, hn]⟩

theorem exists_group_iff {isCandidate : Candidate → Bool}
    {groups : Table String CandidateGroup}
    (h : CandidateGroup.Groups ((s.schema.shownMethods s.subject).filter isCandidate) groups)
    (n : String) :
    (∃ g, groups.get? n = some g) ↔ Naming.isPropertyName n ∧ ∃ c, s.Offers isCandidate n c := by
  constructor
  · intro hsome
    obtain ⟨g, hg⟩ := hsome
    have hfirst : g.first ∈ g.toList := by simp [CandidateGroup.toList]
    have hn : Naming.isPropertyName n := by
      rw [h.toList_eq hg] at hfirst
      have hd := (List.mem_filter.1 hfirst).2
      simp only [Candidate.denotes, Bool.and_eq_true] at hd
      exact hd.2
    exact ⟨hn, g.first, (s.mem_group_iff h hn hg _).1 (by simp [CandidateGroup.toList])⟩
  · intro hoff
    obtain ⟨hn, c, hs, hc, hd⟩ := hoff
    rw [h.get?_eq]
    cases hl : ((s.schema.shownMethods s.subject).filter isCandidate).filter (·.denotes n) with
    | nil =>
      have hm : c ∈ ((s.schema.shownMethods s.subject).filter isCandidate).filter (·.denotes n) :=
        List.mem_filter.2 ⟨List.mem_filter.2 ⟨hs, hc⟩, by simp [Candidate.denotes, hd, hn]⟩
      simp [hl] at hm
    | cons c' rest => exact ⟨_, rfl⟩

theorem findSome?_offer {use : Field → Option FieldUse} {isUsable : Field → Bool}
    {useOf : Field → FieldUse} (hu : ∀ f, use f = if isUsable f then some (useOf f) else none)
    {n : String} (hn : Naming.isPropertyName n) (fields : List (Found Field)) :
    fields.findSome? (s.offer use n) =
      (fields.find? fun f => f.member.name = n && isUsable f.member).map
        fun f => s.fieldAccessor f (useOf f.member) := by
  induction fields with
  | nil => rfl
  | cons f rest ih =>
    rw [List.findSome?_cons, List.find?_cons, ih, offer, hu]
    by_cases hname : f.member.name = n
    · cases hf : isUsable f.member <;> simp [hname, hn]
    · simp [hname]

theorem findSome?_offer_eq_none {use : Field → Option FieldUse} {n : String}
    (hn : ¬ Naming.isPropertyName n) (fields : List (Found Field)) :
    fields.findSome? (s.offer use n) = none := by
  simp [offer, hn]

/-- Some field has an offer if a type on the superclass chain has a usable field of that name. -/
theorem exists_offer_iff (h : s.schema.Acyclic) {use : Field → Option FieldUse}
    {isUsable : Field → Bool} {useOf : Field → FieldUse}
    (hu : ∀ f, use f = if isUsable f then some (useOf f) else none) {n : String}
    (hn : Naming.isPropertyName n) :
    (∃ a, (s.schema.shownFields s.subject).findSome? (s.offer use n) = some a) ↔
      ∃ route owner, s.schema.Outward s.subject route owner ∧
        ∃ f ∈ (s.schema.describe owner).fields, f.name = n ∧ isUsable f := by
  rw [s.findSome?_offer hu hn]
  constructor
  · intro hsome
    obtain ⟨a, ha⟩ := hsome
    obtain ⟨f, hf, _⟩ := Option.map_eq_some_iff.1 ha
    have hm := (h.mem_shownFields_iff s.subject f).1 (List.mem_of_find?_eq_some hf)
    have hp := List.find?_some hf
    simp only [Bool.and_eq_true, decide_eq_true_eq] at hp
    exact ⟨f.route, f.owner, hm.1, f.member, hm.2, hp⟩
  · intro hfield
    obtain ⟨route, owner, hout, f, hf, hp⟩ := hfield
    have hm := (h.mem_shownFields_iff s.subject ⟨f, owner, route⟩).2 ⟨hout, hf⟩
    have hsome : ((s.schema.shownFields s.subject).find? fun f =>
        f.member.name = n && isUsable f.member).isSome :=
      List.find?_isSome.2 ⟨_, hm, by simpa using hp⟩
    obtain ⟨f, hf⟩ := Option.isSome_iff_exists.1 hsome
    exact ⟨_, Option.map_eq_some_iff.2 ⟨f, hf, rfl⟩⟩

/-- A side is complete where the methods come first and the fields after them. -/
theorem complete_of_accessors (h : s.schema.Acyclic) {isCandidate : Candidate → Bool}
    {typeOf : Candidate → RuntimeType} {isUsable : Field → Bool} {useOf : Field → FieldUse}
    {use : Field → Option FieldUse} (hu : ∀ f, use f = if isUsable f then some (useOf f) else none)
    {groups : Table String CandidateGroup}
    (hg : CandidateGroup.Groups ((s.schema.shownMethods s.subject).filter isCandidate) groups)
    {accessor : String → CandidateGroup → Accessor}
    (ha : ∀ n g, ∃ c ∈ g.toList, accessor n g = s.methodAccessor c (typeOf c) ∨
      ∃ ambiguity, accessor n g = .ambiguous ambiguity (typeOf c))
    {Fits : Accessor → Prop} {t : PropertyTable}
    (hget : ∀ n, t.accessors.get? n = ((groups.get? n).map (accessor n)).or
      ((s.schema.shownFields s.subject).findSome? (s.offer use n))) (hc : t.Consistent Fits) :
    s.Complete isCandidate typeOf isUsable useOf t := by
  have hlisted (n : String) : n ∈ t.names ↔ ∃ a, t.accessors.get? n = some a := by
    rw [← hc.keys_accessors, Table.mem_keys_iff, Table.contains, Option.isSome_iff_exists]
  -- Without an offer among the methods the lookup goes on to the fields.
  have hfields {n : String} (hn : ¬ (Naming.isPropertyName n ∧ ∃ c, s.Offers isCandidate n c)) :
      t.accessors.get? n = (s.schema.shownFields s.subject).findSome? (s.offer use n) := by
    have hnone : groups.get? n = none := by
      by_contra hsome
      exact hn ((s.exists_group_iff hg n).1 (Option.ne_none_iff_exists'.1 hsome))
    rw [hget, hnone, Option.map_none, Option.none_or]
  constructor
  · intro n
    rw [hlisted]
    by_cases hv : Naming.isPropertyName n
    · by_cases hoff : ∃ c, s.Offers isCandidate n c
      · obtain ⟨g, hgn⟩ := (s.exists_group_iff hg n).2 ⟨hv, hoff⟩
        simp [hget, hgn, hv, hoff]
      · rw [hfields fun hn => hoff hn.2, s.exists_offer_iff h hu hv]
        simp [hv, hoff]
    · rw [hfields fun hn => hv hn.1, s.findSome?_offer_eq_none hv]
      simp [hv]
  · intro n hn hoff
    obtain ⟨g, hgn⟩ := (s.exists_group_iff hg n).2 ⟨hn, hoff⟩
    obtain ⟨c, hm, hacc⟩ := ha n g
    refine ⟨c, (s.mem_group_iff hg hn hgn c).1 hm, ?_⟩
    simpa [hget, hgn] using hacc
  · intro n hm hoff
    obtain ⟨a, ha⟩ := (hlisted n).1 hm
    rw [ha]
    rw [hfields fun hn => hoff hn.2] at ha
    by_cases hv : Naming.isPropertyName n
    · rw [s.findSome?_offer hu hv, Option.map_eq_some_iff] at ha
      obtain ⟨f, hf, rfl⟩ := ha
      exact ⟨f, (h.find?_shownFields_iff _ _ f).1 hf, rfl⟩
    · simp [s.findSome?_offer_eq_none hv] at ha

theorem getterOf_mem (n : String) (g : CandidateGroup) :
    ∃ c ∈ g.toList, s.getterOf n g = s.methodAccessor c (s.getterType c) ∨
      ∃ ambiguity, s.getterOf n g = .ambiguous ambiguity (s.getterType c) := by
  have hm : (Selection.getter s.schema g.first g.rest).best ∈ g.toList := by
    simpa [CandidateGroup.toList] using
      Selection.getter_members _ _ _ _ (Selection.best_mem_members _)
  refine ⟨_, hm, ?_⟩
  unfold getterOf
  cases Selection.getter s.schema g.first g.rest with
  | chosen winner => exact Or.inl rfl
  | conflict first second => exact Or.inr ⟨_, rfl⟩

theorem setterOf_mem (getters : PropertyTable) (n : String) (g : CandidateGroup) :
    ∃ c ∈ g.toList, s.setterOf getters n g = s.methodAccessor c (s.setterType c) ∨
      ∃ ambiguity, s.setterOf getters n g = .ambiguous ambiguity (s.setterType c) := by
  have hm : (Selection.setter s.schema (given? getters n) g).best ∈ g.toList :=
    Selection.setter_members _ _ _ _ (Selection.best_mem_members _)
  refine ⟨_, hm, ?_⟩
  unfold setterOf
  cases Selection.setter s.schema (given? getters n) g with
  | chosen winner => exact Or.inl rfl
  | conflict first second => exact Or.inr ⟨_, rfl⟩

end Source

end Introspect.Model
