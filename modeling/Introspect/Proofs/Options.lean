import Introspect.Proofs.Consistency
import Introspect.Proofs.Listing
import Introspect.Proofs.Outcomes

/-! One type, modelled under two sets of options. Without the bypass the members that are not public are
refused, and nothing else differs. Without strict naming the properties that a loose question stands for may
differ, and no property is lost. -/
namespace Introspect

namespace Accessor

/-- The accessor of the same member, with or without the permission to use what is not public. -/
def withBypass (bypass : Bool) : Accessor → Accessor
  | method m => method { m with bypass }
  | field f => field { f with bypass }
  | ambiguous ambiguity type => ambiguous ambiguity type

/-- How far the member may be reached. An ambiguous accessor has no member. -/
def visibility? : Accessor → Option Visibility
  | method m => some m.visibility
  | field f => some f.visibility
  | ambiguous _ _ => none

variable (bypass : Bool) (a : Accessor)

@[simp] theorem type_withBypass : (a.withBypass bypass).type = a.type := by cases a <;> rfl

@[simp] theorem isAmbiguous_withBypass : (a.withBypass bypass).isAmbiguous = a.isAmbiguous := by
  cases a <;> rfl

variable {a}

/-- Whether a member may be bypassed matters only if it is not public. -/
theorem invoke_withBypass (h : ∀ v ∈ a.visibility?, v = .publicAccess) (call : PropertyCall)
    (self : Option ObjectRef) (args : List Value) :
    (a.withBypass bypass).invoke call self args = a.invoke call self args := by
  have hrefusal {access : MemberAccess} (hpublic : access.visibility = .publicAccess) (arity : Nat) :
      { access with bypass }.refusal? arity self args = access.refusal? arity self args := by
    simp [MemberAccess.refusal?, hpublic]
  cases a with
  | ambiguous ambiguity type => rfl
  | method m =>
    have hm := hrefusal (h m.visibility rfl) m.arity
    simp only [withBypass, invoke, hm]
    rfl
  | field f =>
    have hf := hrefusal (h f.visibility rfl) f.arity
    have harity : { f with bypass }.arity = f.arity := rfl
    simp only [withBypass, invoke, harity, hf]
    rfl

/-- What is not public is refused before anything else is looked at. -/
theorem invoke_withBypass_false {v : Visibility} (hv : a.visibility? = some v)
    (hprivate : v ≠ .publicAccess) : ∃ site, a.site? = some site ∧ ∀ call self args,
      (a.withBypass false).invoke call self args = throw (.refused site (.inaccessible v)) := by
  have hrefusal {access : MemberAccess} (hp : access.visibility ≠ .publicAccess) (arity : Nat)
      (self : Option ObjectRef) (args : List Value) :
      { access with bypass := false }.refusal? arity self args =
        some (.inaccessible access.visibility) := if_pos ⟨hp, rfl⟩
  cases a with
  | ambiguous ambiguity type => cases hv
  | method m =>
    cases hv
    refine ⟨m.site, rfl, fun call self args => ?_⟩
    simp only [withBypass, invoke, hrefusal hprivate]
    rfl
  | field f =>
    cases hv
    refine ⟨f.site, rfl, fun call self args => ?_⟩
    simp only [withBypass, invoke, hrefusal hprivate]
    rfl

/-- Accessors of one member, of which the second may bypass visibility and the first may not. Unless the
member is public, every use of the first is refused at once; and else the two do the same. -/
structure Restricts (restricted a : Accessor) : Prop where
  eq_withBypass : restricted = a.withBypass false
  shared : (∀ v ∈ a.visibility?, v = .publicAccess) → ∀ call self args,
    restricted.invoke call self args = a.invoke call self args
  refused : ∀ v, a.visibility? = some v → v ≠ .publicAccess → ∃ site, a.site? = some site ∧
    ∀ call self args, restricted.invoke call self args = throw (.refused site (.inaccessible v))

theorem restricts_withBypass (a : Accessor) : (a.withBypass false).Restricts a where
  eq_withBypass := rfl
  shared h := invoke_withBypass false h
  refused _ := invoke_withBypass_false

end Accessor

namespace Candidate

/-- A question that is not answered with `bool`. Strict naming takes it for no getter. -/
def isLoose (c : Candidate) : Bool :=
  c.member.arity = 0 && Naming.isPredicate c.member.name && !c.returns.isBool

theorem isGetter_lenient {c : Candidate} (h : c.isGetter true) : c.isGetter false := by
  simp_all [isGetter]

theorem isGetter_of_not_loose {c : Candidate} (h : c.isLoose = false) :
    c.isGetter false = c.isGetter true := by
  unfold isGetter
  unfold isLoose at h
  cases hp : Naming.isPredicate c.member.name <;> simp_all

end Candidate

namespace Model

namespace Source

variable (s : Source) (options : ModelOptions)

/-- The source of a model of the same type under other options. -/
def withOptions : Source := { s with options }

/-- An accessor as the other options have it. -/
def optioned : Accessor → Accessor := .withBypass options.bypassVisibility

theorem getterOf_withOptions (property : String) (g : CandidateGroup) :
    (s.withOptions options).getterOf property g = optioned options (s.getterOf property g) := by
  unfold getterOf
  change (s.withOptions options).getterAccessor property (Selection.getter s.schema g.first g.rest) = _
  cases Selection.getter s.schema g.first g.rest <;> rfl

theorem setterAccessor_withOptions (property : String) (selection : Selection) :
    (s.withOptions options).setterAccessor property selection =
      optioned options (s.setterAccessor property selection) := by
  cases selection <;> rfl

theorem findSome?_offer_withOptions (use : Field → Option FieldUse) (n : String)
    (fields : List (Found Field)) :
    fields.findSome? ((s.withOptions options).offer use n) =
      (fields.findSome? (s.offer use n)).map (optioned options) := by
  have hoffer (f : Found Field) :
      (s.withOptions options).offer use n f = (s.offer use n f).map (optioned options) := by
    unfold offer
    split_ifs
    · cases use f.member <;> rfl
    · rfl
  rw [List.map_findSome?]
  exact congrArg (fields.findSome? ·) (funext hoffer)

variable {s options} {getGroups setGroups getGroups' setGroups' : Table String CandidateGroup}
  {m m' : Model} {n : String}

/-- Of what the getter gives, nothing but its type and its ambiguity bears on the setter. -/
theorem given?_withOptions (hg : getGroups.keys.Nodup) (hg' : getGroups'.keys.Nodup)
    (hn : getGroups'.get? n = getGroups.get? n) :
    given? (.recordAll (s.withOptions options).getterOf getGroups') n =
      given? (.recordAll s.getterOf getGroups) n := by
  unfold given?
  rw [PropertyTable.accessors_recordAll _ _ hg, PropertyTable.accessors_recordAll _ _ hg',
    PropertyTable.types_recordAll _ _ hg, PropertyTable.types_recordAll _ _ hg', hn]
  simp only [Option.any_map, getterOf_withOptions, optioned, Accessor.isAmbiguous_withBypass,
    Accessor.type_withBypass]

/-- Where the options make no difference to the candidates for a getter, both models have the same
accessors of the property, each with its own permission. -/
theorem Built.accessors_withOptions (h : s.Built getGroups setGroups m)
    (h' : (s.withOptions options).Built getGroups' setGroups' m')
    (hn : getGroups'.get? n = getGroups.get? n) (side : Side) :
    (m'.side side).accessors.get? n = ((m.side side).accessors.get? n).map (optioned options) := by
  have hor {a b : Option Accessor} :
      (a.or b).map (optioned options) = (a.map (optioned options)).or (b.map (optioned options)) := by
    cases a <;> rfl
  cases side with
  | getter =>
    change m'.readable.accessors.get? n = (m.readable.accessors.get? n).map _
    rw [h.readable, h'.readable, hn, hor, ← findSome?_offer_withOptions, Option.map_map]
    congr 2
    exact funext (s.getterOf_withOptions options n)
  | setter =>
    have hsetters : setGroups'.get? n = setGroups.get? n := by
      rw [h.setters.get?_eq, h'.setters.get?_eq]
      rfl
    have hgiven : given? (.recordAll (s.withOptions options).getterOf getGroups') n =
        given? (.recordAll s.getterOf getGroups) n :=
      given?_withOptions h.getters.nodup h'.getters.nodup hn
    change m'.writable.accessors.get? n = (m.writable.accessors.get? n).map _
    rw [h.writable, h'.writable, hsetters, hor, ← findSome?_offer_withOptions, Option.map_map]
    congr 2
    funext g
    unfold setterOf
    rw [hgiven]
    exact s.setterAccessor_withOptions options n _

theorem types_get?_of_build (hm : build s.schema s.subject s.options = .ok m) (side : Side) (n : String) :
    (m.side side).types.get? n = ((m.side side).accessors.get? n).map Accessor.type := by
  obtain ⟨_, hbuild, hreadable, hwritable⟩ := s.exists_build
  obtain rfl := Except.ok.inj (hbuild.symm.trans hm)
  cases side with
  | getter => exact hreadable.types_get? n
  | setter => exact hwritable.types_get? n

/-- The candidates for the getter of a property. -/
def getterCandidates (s : Source) (n : String) : List Candidate :=
  ((s.schema.shownMethods s.subject).filter (Candidate.isGetter s.options.strictPredicates)).filter
    (·.denotes n)

/-- The two sides of a property, where the options make no difference to the candidates for its getter. -/
theorem sides_withOptions (hm : build s.schema s.subject s.options = .ok m)
    (hm' : build s.schema s.subject options = .ok m')
    (hn : (s.withOptions options).getterCandidates n = s.getterCandidates n) (side : Side) :
    (m'.side side).accessors.get? n = ((m.side side).accessors.get? n).map (optioned options) ∧
      (m'.side side).types.get? n = (m.side side).types.get? n := by
  obtain ⟨getGroups, setGroups, hbuilt⟩ := s.built hm
  obtain ⟨getGroups', setGroups', hbuilt'⟩ := (s.withOptions options).built hm'
  have hgroups : getGroups'.get? n = getGroups.get? n := by
    rw [hbuilt.getters.get?_eq, hbuilt'.getters.get?_eq]
    exact congrArg CandidateGroup.ofList? hn
  have haccessors := hbuilt.accessors_withOptions hbuilt' hgroups side
  refine ⟨haccessors, ?_⟩
  rw [(s.withOptions options).types_get?_of_build hm', s.types_get?_of_build hm, haccessors,
    Option.map_map]
  exact congrArg (Option.map · _) (funext fun a => a.type_withBypass options.bypassVisibility)

end Source

/-- The permission to bypass visibility bears on nothing but the use of members that are not public. With
it and without it a type has the same properties, of the same types and with the same members behind them. -/
theorem build_bypass (schema : Schema) (subject : TypeId) (strict : Bool) :
    ∃ free restricted,
      build schema subject { bypassVisibility := true, strictPredicates := strict } = .ok free ∧
      build schema subject { bypassVisibility := false, strictPredicates := strict } = .ok restricted ∧
      restricted.defaultConstructor? = free.defaultConstructor? ∧
      ∀ side, (restricted.side side).names = (free.side side).names ∧ ∀ n,
        (restricted.side side).types.get? n = (free.side side).types.get? n ∧
        Option.Rel Accessor.Restricts ((restricted.side side).accessors.get? n)
          ((free.side side).accessors.get? n) := by
  let s : Source := { schema, subject, options := { bypassVisibility := true, strictPredicates := strict } }
  let options : ModelOptions := { bypassVisibility := false, strictPredicates := strict }
  obtain ⟨free, hfree, _⟩ := s.exists_build
  obtain ⟨restricted, hrestricted, _⟩ := (s.withOptions options).exists_build
  obtain ⟨hread, hwrite⟩ := s.build_lists hfree
  obtain ⟨hread', hwrite'⟩ := (s.withOptions options).build_lists hrestricted
  refine ⟨free, restricted, hfree, hrestricted, ?_, fun side => ⟨?_, fun n => ?_⟩⟩
  · rw [s.defaultConstructor?_of_build hfree, (s.withOptions options).defaultConstructor?_of_build hrestricted]
    rfl
  · cases side with
    | getter => exact hread'.names.trans hread.names.symm
    | setter => exact hwrite'.names.trans hwrite.names.symm
  · obtain ⟨haccessors, htypes⟩ := Source.sides_withOptions (n := n) hfree hrestricted rfl side
    refine ⟨htypes, ?_⟩
    rw [haccessors]
    cases (free.side side).accessors.get? n with
    | none => exact .none
    | some a => exact .some a.restricts_withBypass

/-- A private getter of the superclass that is more specific than the public one of the class. -/
def guarding : List Schema.Operation := [
  .reopen Schema.baseClass {} "Base",
  .declare Schema.baseClass (.method
    { name := "getName", result := some .string, visibility := .privateAccess, body := .load "name" }),
  .declare Schema.baseClass (.method { name := "setName", params := [.string], body := .store ["name"] }),
  .reopen Schema.derivedClass {} "Derived",
  .declare Schema.derivedClass (.superclass
    { base := some Schema.baseClass, upcast := some "Derived>Base" }),
  .declare Schema.derivedClass (.method
    { name := "getName", result := some .object, body := .load "name" })]

/-- The private getter is chosen all the same. Where it may not be used, neither the missing object nor the
argument that is one too many is noticed. The setter is public. -/
theorem build_bypass_guarding : ∃ free restricted getter setter getter' setter',
    build (.run guarding) Schema.derivedClass { bypassVisibility := true } = .ok free ∧
    build (.run guarding) Schema.derivedClass { bypassVisibility := false } = .ok restricted ∧
    free.readable.names = ["name"] ∧ restricted.readable.names = free.readable.names ∧
    free.readable.accessors.get? "name" = some getter ∧
    free.writable.accessors.get? "name" = some setter ∧
    restricted.readable.accessors.get? "name" = some getter' ∧
    restricted.writable.accessors.get? "name" = some setter' ∧
    (∀ call, getter'.invoke call none [.int 1] =
      throw (.refused (.method "getName" "Base") (.inaccessible .privateAccess))) ∧
    ∀ call self args, setter'.invoke call self args = setter.invoke call self args := by
  obtain ⟨free, restricted, hfree, hrestricted, _, hside⟩ :=
    build_bypass (.run guarding) Schema.derivedClass true
  obtain ⟨other, getter, setter, hother, hnames, hgetter, hsetter, hsite, hprivate, hpublic⟩ :
      ∃ other getter setter,
        build (.run guarding) Schema.derivedClass { bypassVisibility := true } = .ok other ∧
        other.readable.names = ["name"] ∧ other.readable.accessors.get? "name" = some getter ∧
        other.writable.accessors.get? "name" = some setter ∧
        getter.site? = some (.method "getName" "Base") ∧
        getter.visibility? = some .privateAccess ∧ setter.visibility? = some .publicAccess :=
    ⟨_, _, _, rfl, by decide, rfl, rfl, rfl, rfl, rfl⟩
  obtain rfl := Except.ok.inj (hother.symm.trans hfree)
  have hrestricts {side : Side} {a : Accessor} (ha : (other.side side).accessors.get? "name" = some a) :
      ∃ a', (restricted.side side).accessors.get? "name" = some a' ∧ a'.Restricts a := by
    have hrel := ((hside side).2 "name").2
    rw [ha] at hrel
    generalize (restricted.side side).accessors.get? "name" = found at hrel
    cases hrel with
    | some h => exact ⟨_, rfl, h⟩
  obtain ⟨getter', hgetter', hrefuses⟩ := @hrestricts .getter _ hgetter
  obtain ⟨setter', hsetter', hshares⟩ := @hrestricts .setter _ hsetter
  obtain ⟨site, hsite', hthrows⟩ := hrefuses.refused _ hprivate (by decide)
  obtain rfl := Option.some.inj (hsite'.symm.trans hsite)
  refine ⟨other, restricted, getter, setter, getter', setter', hother, hrestricted, hnames,
    (hside .getter).1, hgetter, hsetter, hgetter', hsetter', fun call => hthrows call _ _, ?_⟩
  exact hshares.shared fun v hv => Option.some.inj (hv.symm.trans hpublic)

/-- Without strict naming no readable property is lost and the writable ones stay the same. A property
that no loose question stands for has the same two sides as before. -/
theorem build_lenient (schema : Schema) (subject : TypeId) (bypass : Bool) :
    ∃ strict lenient,
      build schema subject { bypassVisibility := bypass, strictPredicates := true } = .ok strict ∧
      build schema subject { bypassVisibility := bypass, strictPredicates := false } = .ok lenient ∧
      strict.readable.names ⊆ lenient.readable.names ∧
      lenient.writable.names = strict.writable.names ∧
      ∀ n, (∀ c : Candidate, c ∈ schema.shownMethods subject → c.isLoose → ¬ c.denotes n) → ∀ side,
        (lenient.side side).accessors.get? n = (strict.side side).accessors.get? n ∧
        (lenient.side side).types.get? n = (strict.side side).types.get? n := by
  let s : Source := { schema, subject, options := { bypassVisibility := bypass, strictPredicates := true } }
  let options : ModelOptions := { bypassVisibility := bypass, strictPredicates := false }
  obtain ⟨strict, hstrict, _⟩ := s.exists_build
  obtain ⟨lenient, hlenient, _⟩ := (s.withOptions options).exists_build
  obtain ⟨hread, hwrite⟩ := s.build_lists hstrict
  obtain ⟨hread', hwrite'⟩ := (s.withOptions options).build_lists hlenient
  refine ⟨strict, lenient, hstrict, hlenient, ?_, hwrite'.names.trans hwrite.names.symm, ?_⟩
  · intro n hn
    rw [hread.mem_iff, Source.offered, List.mem_append, List.mem_filterMap] at hn
    rw [hread'.mem_iff, Source.offered, List.mem_append, List.mem_filterMap]
    refine hn.imp_left fun hmethod => ?_
    obtain ⟨c, hc, hproperty⟩ := hmethod
    obtain ⟨hshown, hgetter⟩ := List.mem_filter.1 hc
    exact ⟨c, List.mem_filter.2 ⟨hshown, Candidate.isGetter_lenient hgetter⟩, hproperty⟩
  · intro n hn side
    have hcandidates : (s.withOptions options).getterCandidates n = s.getterCandidates n := by
      unfold Source.getterCandidates
      rw [List.filter_filter, List.filter_filter]
      refine List.filter_congr fun c hc => ?_
      cases hd : Candidate.denotes n c with
      | false => rfl
      | true =>
        have hstrictly : c.isLoose = false := by
          simpa [hd] using hn c hc
        exact congrArg (true && ·) (Candidate.isGetter_of_not_loose hstrictly)
    obtain ⟨haccessors, htypes⟩ := Source.sides_withOptions hstrict hlenient hcandidates side
    -- the permission is the same under both options
    have hsame : (strict.side side).accessors.get? n =
        ((strict.side side).accessors.get? n).map (Source.optioned s.options) :=
      (Source.sides_withOptions hstrict hstrict rfl side).1
    exact ⟨haccessors.trans hsame.symm, htypes⟩

/-- A question that is answered with a number, beside another getter of the same property, and one that is
answered with `bool`. -/
def questioning : List Schema.Operation := [
  .reopen Schema.baseClass {} "Base",
  .declare Schema.baseClass (.method { name := "isOpen", result := some .int, body := .load "open" }),
  .declare Schema.baseClass (.method { name := "getOpen", result := some .int, body := .load "open" }),
  .declare Schema.baseClass (.method { name := "isReady", result := some .bool, body := .load "ready" }),
  .declare Schema.baseClass (.field { name := "ready", type := .bool, storage := .slot "ready" })]

/-- The getters of the first property conflict without strict naming. The other property is as before. -/
theorem build_lenient_questioning : ∃ strict lenient,
    build (.run questioning) Schema.baseClass {} = .ok strict ∧
    build (.run questioning) Schema.baseClass { strictPredicates := false } = .ok lenient ∧
    strict.readable.names ⊆ lenient.readable.names ∧ lenient.writable.names = strict.writable.names ∧
    (strict.readable.accessors.get? "open").map Accessor.isAmbiguous = some false ∧
    (lenient.readable.accessors.get? "open").map Accessor.isAmbiguous = some true ∧
    strict.readable.contains "ready" ∧ strict.writable.contains "ready" ∧
    ∀ side, (lenient.side side).accessors.get? "ready" = (strict.side side).accessors.get? "ready" := by
  obtain ⟨strict, lenient, hstrict, hlenient, hread, hwrite, hside⟩ :=
    build_lenient (.run questioning) Schema.baseClass true
  obtain ⟨other, other', hother, hother', hopen, hopen', hready, hready'⟩ : ∃ other other',
      build (.run questioning) Schema.baseClass {} = .ok other ∧
      build (.run questioning) Schema.baseClass { strictPredicates := false } = .ok other' ∧
      (other.readable.accessors.get? "open").map Accessor.isAmbiguous = some false ∧
      (other'.readable.accessors.get? "open").map Accessor.isAmbiguous = some true ∧
      other.readable.contains "ready" ∧ other.writable.contains "ready" :=
    ⟨_, _, rfl, rfl, by decide, by decide, by decide, by decide⟩
  obtain rfl := Except.ok.inj (hother.symm.trans hstrict)
  obtain rfl := Except.ok.inj (hother'.symm.trans hlenient)
  have hloose : ∀ c : Candidate, c ∈ (Schema.run questioning).shownMethods Schema.baseClass →
      c.isLoose → ¬ c.denotes "ready" := by decide
  exact ⟨other, other', hother, hother', hread, hwrite, hopen, hopen', hready, hready',
    fun side => (hside "ready" hloose side).1⟩

end Model
end Introspect
