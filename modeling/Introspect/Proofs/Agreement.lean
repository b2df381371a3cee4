import Introspect.Proofs.Consistency
import Introspect.Proofs.Listing
import Introspect.Proofs.Stops

/-! Models of schemas that agree in all but the members that stand for one property. The models agree in all
other properties. -/
namespace Introspect

/-- Two sides of models that agree in everything but one property. -/
structure PropertyTable.AgreeApart (property? : Option String) (t u : PropertyTable) : Prop where
  names : t.names.filter (fun n => some n ≠ property?) = u.names.filter fun n => some n ≠ property?
  accessors : ∀ n, some n ≠ property? → t.accessors.get? n = u.accessors.get? n
  types : ∀ n, some n ≠ property? → t.types.get? n = u.types.get? n

/-- Methods that do not stand for the property. -/
def Method.apartFrom (property? : Option String) (m : Method) : Bool :=
  Naming.propertyOf? m.name ≠ property?

def Field.apartFrom (property? : Option String) (f : Field) : Bool := some f.name ≠ property?

/-- Show the same methods and the same fields that do not stand for the property. -/
structure Schema.ShowAlike (s t : Schema) (property? : Option String) (subject : TypeId) : Prop where
  methods : (s.shownMethods subject).filter (·.member.apartFrom property?) =
    (t.shownMethods subject).filter (·.member.apartFrom property?)
  fields : (s.shownFields subject).filter (·.member.apartFrom property?) =
    (t.shownFields subject).filter (·.member.apartFrom property?)

namespace Selection

variable {s t : Schema} (h : s.Congruent t)
include h

theorem getter_congr (best : Candidate) (rest : List Candidate) :
    getter s best rest = getter t best rest := by
  induction rest generalizing best with
  | nil => rfl
  | cons c rest ih => simp only [getter, h.accepts_eq, ih]

theorem setter_congr (given : Option RuntimeType) (g : CandidateGroup) :
    setter s given g = setter t given g := by
  have hafter (selection : Selection) (rest : List Candidate) :
      setterAfter s given selection rest = setterAfter t given selection rest := by
    induction rest generalizing selection with
    | nil => rfl
    | cons c rest ih =>
      have hweigh : selection.weigh s c = selection.weigh t c := by
        unfold weigh
        rw [h.accepts_eq]
      unfold setterAfter
      rw [hweigh, ih]
  unfold setter
  rw [hafter]

end Selection

namespace Model

namespace Source

variable {s t : Schema} {subject : TypeId} {options : ModelOptions}

section Congruent

variable (h : s.Congruent t)
include h

theorem methodAccessor_congr :
    methodAccessor ⟨s, subject, options⟩ = methodAccessor ⟨t, subject, options⟩ := by
  funext c type
  simp only [methodAccessor, declaringName, h.nameOf_eq]

theorem fieldAccessor_congr :
    fieldAccessor ⟨s, subject, options⟩ = fieldAccessor ⟨t, subject, options⟩ := by
  funext f use
  simp only [fieldAccessor, declaringName, h.nameOf_eq, h.fieldTypeAt_eq]

theorem getterOf_congr : getterOf ⟨s, subject, options⟩ = getterOf ⟨t, subject, options⟩ := by
  funext property g
  unfold getterOf getterAccessor
  rw [Selection.getter_congr h, methodAccessor_congr h]
  simp only [getterType, declaringName, h.returnsAt_eq, h.nameOf_eq, h.typeName_eq]

theorem setterOf_congr {getters getters' : PropertyTable} {property : String}
    (hgiven : given? getters property = given? getters' property) :
    setterOf ⟨s, subject, options⟩ getters property =
      setterOf ⟨t, subject, options⟩ getters' property := by
  funext g
  unfold setterOf setterAccessor
  rw [Selection.setter_congr h, methodAccessor_congr h, hgiven]
  simp only [setterType, declaringName, h.paramsAt_eq, h.nameOf_eq, h.typeName_eq]

theorem fill_congr : fill ⟨s, subject, options⟩ = fill ⟨t, subject, options⟩ := by
  funext use table f
  unfold fill recordField
  rw [fieldAccessor_congr h]
  simp only [h.fieldTypeAt_eq]

theorem offer_congr : offer ⟨s, subject, options⟩ = offer ⟨t, subject, options⟩ := by
  funext use n f
  unfold offer
  rw [fieldAccessor_congr h]

end Congruent

end Source

/-- Schemas that agree, in members too, have the same models. -/
theorem build_congr {s t : Schema} (h : s.Congruent t)
    (hmethods : ∀ id, (s.describe id).methods = (t.describe id).methods)
    (hfields : ∀ id, (s.describe id).fields = (t.describe id).fields)
    (hconstructors : ∀ id, (s.describe id).constructors = (t.describe id).constructors)
    (subject : TypeId) (options : ModelOptions) : build s subject options = build t subject options := by
  have hshown := h.shownMethods_congr hmethods
  let source : Source := ⟨s, subject, options⟩
  let source' : Source := ⟨t, subject, options⟩
  obtain ⟨getGroups, hgetters, _⟩ := source.exists_getter_groups (s.shownMethods subject)
  obtain ⟨setGroups, hsetters, _⟩ := Source.exists_setter_groups (s.shownMethods subject)
  have hgetters' : CandidateGroup.byProperty ((t.shownMethods subject).filter
      (Candidate.isGetter options.strictPredicates)) = .ok getGroups := hshown ▸ hgetters
  have hsetters' : CandidateGroup.byProperty ((t.shownMethods subject).filter Candidate.isSetter) =
      .ok setGroups := hshown ▸ hsetters
  have hgetterOf : source.getterOf = source'.getterOf := Source.getterOf_congr h
  have hsetterOf (getters : PropertyTable) : source.setterOf getters = source'.setterOf getters :=
    funext fun _ => Source.setterOf_congr h rfl
  have hbuild := source.build_eq (source.getters_of_byProperty hgetters)
    (source.setters_of_byProperty hsetters _)
  have hbuild' := source'.build_eq (source'.getters_of_byProperty hgetters')
    (source'.setters_of_byProperty hsetters' _)
  have hfill : source.fill = source'.fill := Source.fill_congr h
  have hfields' : source.schema.shownFields source.subject =
      source'.schema.shownFields source'.subject :=
    congrFun (h.shownFields_congr hfields) subject
  have hdefault : (source.schema.describe source.subject).defaultConstructor? =
      (source'.schema.describe source'.subject).defaultConstructor? := by
    unfold Description.defaultConstructor?
    exact congrArg _ (hconstructors subject)
  rw [hgetterOf, hsetterOf, hfill, hfields', hdefault] at hbuild
  exact hbuild.trans hbuild'.symm

/-- Nothing comes of the entries that are left out. -/
private theorem filterMap_filter_of_none {α β : Type} {f : α → Option β} {p : α → Bool} {l : List α}
    (hf : ∀ a, p a = false → f a = none) : (l.filter p).filterMap f = l.filterMap f := by
  rw [List.filterMap_filter]
  refine List.filterMap_congr fun a _ => ?_
  cases hp : p a with
  | true => rfl
  | false => exact (hf a hp).symm

section ShowAlike

variable {s t : Schema} {property? : Option String} {subject : TypeId} {options : ModelOptions}
  (h : s.Congruent t) (hshow : s.ShowAlike t property? subject)
include hshow

theorem candidates_agree (isCandidate : Candidate → Bool) {n : String} (hn : some n ≠ property?) :
    ((s.shownMethods subject).filter isCandidate).filter (·.denotes n) =
      ((t.shownMethods subject).filter isCandidate).filter (·.denotes n) := by
  have hapart (found : List Candidate) : (found.filter isCandidate).filter (·.denotes n) =
      ((found.filter (·.member.apartFrom property?)).filter isCandidate).filter (·.denotes n) := by
    rw [List.filter_filter, List.filter_filter, List.filter_filter]
    refine List.filter_congr fun c _ => ?_
    cases hd : c.denotes n with
    | false => rfl
    | true =>
      have hname : Naming.propertyOf? c.member.name = some n := by simp_all [Candidate.denotes]
      simp [Method.apartFrom, hname, hn]
  rw [hapart (s.shownMethods subject), hapart (t.shownMethods subject), hshow.methods]

theorem groups_agree {isCandidate : Candidate → Bool} {groups groups' : Table String CandidateGroup}
    (hg : CandidateGroup.Groups ((s.shownMethods subject).filter isCandidate) groups)
    (hg' : CandidateGroup.Groups ((t.shownMethods subject).filter isCandidate) groups')
    {n : String} (hn : some n ≠ property?) : groups.get? n = groups'.get? n := by
  rw [hg.get?_eq, hg'.get?_eq, candidates_agree hshow isCandidate hn]

theorem offers_agree (use : Field → Option FieldUse) {n : String} (hn : some n ≠ property?)
    (source : Source) :
    (s.shownFields subject).findSome? (source.offer use n) =
      (t.shownFields subject).findSome? (source.offer use n) := by
  have hapart (f : Found Field) (hf : f.member.apartFrom property? = false) :
      source.offer use n f = none := by
    have hname : some f.member.name = property? := by simpa [Field.apartFrom] using hf
    refine if_neg fun hoffers => hn ?_
    rw [← hoffers.1]
    exact hname
  have hfound (fields : List (Found Field)) : fields.findSome? (source.offer use n) =
      (fields.filter (·.member.apartFrom property?)).findSome? (source.offer use n) := by
    rw [← List.head?_filterMap, ← List.head?_filterMap, filterMap_filter_of_none hapart]
  rw [hfound (s.shownFields subject), hfound (t.shownFields subject), hshow.fields]

theorem offered_agree (isCandidate : Candidate → Bool) (use : Field → Option FieldUse) :
    (Source.offered ⟨s, subject, options⟩ isCandidate use).filter (fun n => some n ≠ property?) =
      (Source.offered ⟨t, subject, options⟩ isCandidate use).filter fun n => some n ≠ property? := by
  have hmethod (c : Candidate) (hc : c.member.apartFrom property? = false) :
      c.property?.filter (fun n => some n ≠ property?) = none := by
    have hname : Naming.propertyOf? c.member.name = property? := by simpa [Method.apartFrom] using hc
    rw [Candidate.property?, hname]
    cases property? <;> simp
  have hfield (f : Found Field) (hf : f.member.apartFrom property? = false) :
      (Source.fieldProperty? use f).filter (fun n => some n ≠ property?) = none := by
    have hname : some f.member.name = property? := by simpa [Field.apartFrom] using hf
    unfold Source.fieldProperty?
    split_ifs
    · cases use f.member <;> simp [← hname]
    · rfl
  have hmethods (found : List Candidate) :
      ((found.filter isCandidate).filterMap Candidate.property?).filter (fun n => some n ≠ property?) =
        ((found.filter (·.member.apartFrom property?)).filter isCandidate).filterMap
          fun c => c.property?.filter fun n => some n ≠ property? := by
    rw [List.filter_filterMap, List.filter_comm, filterMap_filter_of_none hmethod]
  have hfields (found : List (Found Field)) :
      (found.filterMap (Source.fieldProperty? use)).filter (fun n => some n ≠ property?) =
        (found.filter (·.member.apartFrom property?)).filterMap
          fun f => (Source.fieldProperty? use f).filter fun n => some n ≠ property? := by
    rw [List.filter_filterMap, filterMap_filter_of_none hfield]
  unfold Source.offered
  rw [List.filter_append, List.filter_append, hmethods (s.shownMethods subject),
    hmethods (t.shownMethods subject), hfields (s.shownFields subject),
    hfields (t.shownFields subject), hshow.methods, hshow.fields]

/-- One side of two models agrees apart from the property, if its accessors do. -/
private theorem agreeApart_of_accessors {Fits : Accessor → Prop} {u u' : PropertyTable}
    {isCandidate : Candidate → Bool} {use : Field → Option FieldUse}
    (hu : u.Lists (Source.offered ⟨s, subject, options⟩ isCandidate use))
    (hu' : u'.Lists (Source.offered ⟨t, subject, options⟩ isCandidate use))
    (hc : u.Consistent Fits) (hc' : u'.Consistent Fits)
    (ha : ∀ n, some n ≠ property? → u.accessors.get? n = u'.accessors.get? n) :
    u.AgreeApart property? u' where
  names := by
    have hfilter (l : List String) : l.eraseDups.filter (fun n => some n ≠ property?) =
        (l.filter fun n => some n ≠ property?).eraseDups :=
      eraseDupsBy_filter fun a _ b _ heq => by rw [eq_of_beq heq]
    rw [hu.names, hu'.names, hfilter, hfilter, offered_agree hshow]
  accessors := ha
  types n hn := by rw [hc.types_get?, hc'.types_get?, ha n hn]

include h

/-- The models of a type agree apart from a property, if the same methods and fields are shown that do not
stand for it. -/
theorem build_agree (options : ModelOptions) :
    ∃ m m', build s subject options = .ok m ∧ build t subject options = .ok m' ∧
      ∀ side, (m.side side).AgreeApart property? (m'.side side) := by
  obtain ⟨m, hm, hreadable, hwritable⟩ := Source.exists_build ⟨s, subject, options⟩
  obtain ⟨m', hm', hreadable', hwritable'⟩ := Source.exists_build ⟨t, subject, options⟩
  obtain ⟨getGroups, setGroups, hbuilt⟩ := Source.built _ hm
  obtain ⟨getGroups', setGroups', hbuilt'⟩ := Source.built _ hm'
  obtain ⟨hread, hwrite⟩ := Source.build_lists _ hm
  obtain ⟨hread', hwrite'⟩ := Source.build_lists _ hm'
  refine ⟨m, m', hm, hm', fun side => ?_⟩
  cases side with
  | getter =>
    refine agreeApart_of_accessors hshow hread hread' hreadable hreadable' fun n hn => ?_
    change m.readable.accessors.get? n = m'.readable.accessors.get? n
    rw [hbuilt.readable, hbuilt'.readable, groups_agree hshow hbuilt.getters hbuilt'.getters hn,
      Source.getterOf_congr h, Source.offer_congr h, offers_agree hshow Source.reading hn]
  | setter =>
    refine agreeApart_of_accessors hshow hwrite hwrite' hwritable hwritable' fun n hn => ?_
    -- A setter depends on the getters only through what the getter of its own property gives.
    have hgiven : Source.given? (.recordAll (Source.getterOf ⟨s, subject, options⟩) getGroups) n =
        Source.given? (.recordAll (Source.getterOf ⟨t, subject, options⟩) getGroups') n := by
      unfold Source.given?
      rw [PropertyTable.accessors_recordAll _ _ hbuilt.getters.nodup,
        PropertyTable.accessors_recordAll _ _ hbuilt'.getters.nodup,
        PropertyTable.types_recordAll _ _ hbuilt.getters.nodup,
        PropertyTable.types_recordAll _ _ hbuilt'.getters.nodup, Source.getterOf_congr h,
        groups_agree hshow hbuilt.getters hbuilt'.getters hn]
    change m.writable.accessors.get? n = m'.writable.accessors.get? n
    rw [hbuilt.writable, hbuilt'.writable, groups_agree hshow hbuilt.setters hbuilt'.setters hn,
      Source.setterOf_congr h hgiven, Source.offer_congr h, offers_agree hshow Source.writing hn]

end ShowAlike

end Model
end Introspect
