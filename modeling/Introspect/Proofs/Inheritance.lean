import Introspect.Proofs.Completeness
import Introspect.Proofs.Signatures

/-! A class other than the root has all properties of its superclass. A method that hides one of the
superclass is a candidate for the same property, and no field hides another. -/
namespace Introspect

namespace Schema

variable {s : Schema}

/-- Types in signatures are told apart by their names. -/
def Distinct (s : Schema) : Prop :=
  ∀ a b, s.Signed a → s.Signed b → s.nameOf a = s.nameOf b → a = b

/-- It is enough that the listed types have different names. -/
theorem distinct_of_listed
    (hsigned : ∀ id ∈ s.types.keys, ∀ m ∈ (s.describe id).methods, ∀ t ∈ m.erased, ∀ a ∈ t.element,
      a ∈ s.types.keys)
    (hnames : ∀ a ∈ s.types.keys, ∀ b ∈ s.types.keys, s.nameOf a = s.nameOf b → a = b) :
    s.Distinct := by
  have hlisted {a : TypeId} (h : s.Signed a) : a ∈ s.types.keys := by
    obtain ⟨id, m, hm, t, ht, ha⟩ := h
    exact describe_of_listed (P := fun d => ∀ m ∈ d.methods, ∀ t ∈ m.erased, ∀ a ∈ t.element,
      a ∈ s.types.keys) (fun _ _ _ hm => absurd hm List.not_mem_nil) hsigned id m hm t ht a ha
  exact fun a b ha hb => hnames a (hlisted ha) b (hlisted hb)

/-- Alike types are both `bool` or neither is. -/
theorem Distinct.isBool_eq (h : s.Distinct) {t u : RuntimeType} (halike : s.Alike t u)
    (ht : ∀ a ∈ t.element, s.Signed a) (hu : ∀ a ∈ u.element, s.Signed a) : t.isBool = u.isBool := by
  cases halike with
  | @named a b hname rank =>
    obtain rfl := h a b (ht a rfl) (hu b rfl) hname
    rfl
  | invalid rank rank' => simp [RuntimeType.isBool, RuntimeType.of]

end Schema

namespace Candidate

variable {s : Schema}

/-- Of alike methods that types list, both are candidates or neither is. -/
def TreatedAlike (s : Schema) (isCandidate : Candidate → Bool) : Prop :=
  ∀ c c' : Candidate, c.member ∈ (s.describe c.owner).methods →
    c'.member ∈ (s.describe c'.owner).methods → s.AlikeMethods c.member c'.member →
    isCandidate c = isCandidate c'

theorem isSetter_treatedAlike : TreatedAlike s isSetter := by
  intro c c' _ _ h
  have harity : c.member.arity = c'.member.arity := h.params.length_eq
  unfold isSetter
  rw [harity, h.name]

theorem isGetter_treatedAlike (hdistinct : s.Distinct) (strict : Bool) :
    TreatedAlike s (isGetter strict) := by
  intro c c' hc hc' h
  have harity : c.member.arity = c'.member.arity := h.params.length_eq
  have hsigned {c : Candidate} (hc : c.member ∈ (s.describe c.owner).methods) :
      ∀ a ∈ c.returns.element, s.Signed a :=
    fun _ ha => ⟨c.owner, c.member, hc, c.returns, List.mem_cons_self, ha⟩
  have hbool : c.returns.isBool = c'.returns.isBool :=
    hdistinct.isBool_eq h.returns (hsigned hc) (hsigned hc')
  unfold isGetter
  rw [harity, h.name, hbool]

end Candidate

namespace Model

namespace Source

variable {s : Source}

/-- Methods or fields offer a property of the name. -/
def Provides (s : Source) (isCandidate : Candidate → Bool) (isUsable : Field → Bool) (n : String) :
    Prop :=
  Naming.isPropertyName n ∧ ((∃ c, s.Offers isCandidate n c) ∨
    ∃ route owner, s.schema.Outward s.subject route owner ∧
      ∃ f ∈ (s.schema.describe owner).fields, f.name = n ∧ isUsable f)

/-- A model is built, with the names that methods and fields provide. -/
theorem exists_build_provided (s : Source) (h : s.schema.Acyclic) :
    ∃ m, build s.schema s.subject s.options = .ok m ∧
      (∀ n, n ∈ m.readable.names ↔
        s.Provides (Candidate.isGetter s.options.strictPredicates) (fun _ => true) n) ∧
      ∀ n, n ∈ m.writable.names ↔ s.Provides Candidate.isSetter isSettable n := by
  obtain ⟨m, hm, hreadable, hwritable⟩ := s.exists_build
  obtain ⟨getGroups, setGroups, hbuilt⟩ := s.built hm
  refine ⟨m, hm, ?_, ?_⟩
  · exact (s.complete_of_accessors h reading_eq hbuilt.getters s.getterOf_mem hbuilt.readable
      hreadable).mem_names_iff
  · exact (s.complete_of_accessors h writing_eq hbuilt.setters (s.setterOf_mem _) hbuilt.writable
      hwritable).mem_names_iff

/-- What a method that is met offers, it offers itself, or the method that hides it does. -/
theorem exists_offers_of_visit (hlegible : s.schema.Legible) {isCandidate : Candidate → Bool}
    (halike : Candidate.TreatedAlike s.schema isCandidate) {n : String} {v : Candidate}
    (hv : v ∈ s.schema.visits s.subject) (hcandidate : isCandidate v)
    (hdenotes : Naming.propertyOf? v.member.name = some n) : ∃ c, s.Offers isCandidate n c := by
  obtain ⟨c, hshown, hsame⟩ := Schema.exists_shown_of_mem_visits hv
  have hlisted := (Schema.shownMethods_listed s.subject c hshown).2
  have hlisted' := (Schema.visits_listed s.subject v hv).2
  have hmethods := hlegible.alike_of_signature_eq hlisted hlisted' hsame
  refine ⟨c, hshown, ?_, ?_⟩
  · rw [halike c v hlisted hlisted' hmethods]
    exact hcandidate
  · rw [hmethods.name]
    exact hdenotes

variable {base : TypeId} {l : Link}

/-- What a method of the superclass offers, it offers itself from the class, or the method that hides it
does. -/
theorem exists_offers_of_superclass (hacyclic : s.schema.Acyclic) (hlegible : s.schema.Legible)
    (hsubject : s.subject ≠ .object) (hsuper : s.schema.superclass? s.subject = some (l, base))
    {isCandidate : Candidate → Bool} (halike : Candidate.TreatedAlike s.schema isCandidate)
    {n : String} {c : Candidate} (h : Offers { s with subject := base } isCandidate n c) :
    ∃ c', s.Offers isCandidate n c' := by
  have hlisted := (Schema.shownMethods_listed base c h.shown).2
  have hmet : c.through l ∈ s.schema.visits s.subject := by
    rw [hacyclic.visits_eq hsubject, hsuper]
    exact List.mem_append_right _ (List.mem_map_of_mem (Schema.mem_visits_of_shown h.shown))
  have hcandidate : isCandidate (c.through l) := by
    rw [halike (c.through l) c hlisted hlisted (hlegible.alike_of_signature_eq hlisted hlisted rfl)]
    exact h.candidate
  exact exists_offers_of_visit hlegible halike hmet hcandidate h.denotes

theorem Provides.of_superclass (hacyclic : s.schema.Acyclic) (hlegible : s.schema.Legible)
    (hsubject : s.subject ≠ .object) (hsuper : s.schema.superclass? s.subject = some (l, base))
    {isCandidate : Candidate → Bool} (halike : Candidate.TreatedAlike s.schema isCandidate)
    {isUsable : Field → Bool} {n : String}
    (h : Provides { s with subject := base } isCandidate isUsable n) :
    s.Provides isCandidate isUsable n := by
  obtain ⟨hn, ⟨c, hoffers⟩ | ⟨route, owner, houtward, hfield⟩⟩ := h
  · exact ⟨hn, Or.inl (exists_offers_of_superclass hacyclic hlegible hsubject hsuper halike hoffers)⟩
  · obtain ⟨hl, ht⟩ := Schema.superclass?_eq_some_iff.1 hsuper
    exact ⟨hn, Or.inr ⟨l :: route, owner, .step hl ht houtward, hfield⟩⟩

end Source

/-- Whatever a class declares and whatever arguments its link carries, it keeps the properties of its
superclass. -/
theorem names_subset_of_superclass (schema : Schema) (hacyclic : schema.Acyclic)
    (hlegible : schema.Legible) (hdistinct : schema.Distinct) {subject base : TypeId} {l : Link}
    (hl : (schema.describe subject).superclass = some l) (ht : l.target = some base)
    (hsubject : subject ≠ .object) (options : ModelOptions) :
    ∃ m inherited, build schema subject options = .ok m ∧ build schema base options = .ok inherited ∧
      inherited.readable.names ⊆ m.readable.names ∧ inherited.writable.names ⊆ m.writable.names := by
  let s : Source := { schema, subject, options }
  have hsuper := Schema.superclass?_eq_some_iff.2 ⟨hl, ht⟩
  obtain ⟨m, hm, hreadable, hwritable⟩ := s.exists_build_provided hacyclic
  obtain ⟨inherited, hinherited, hreadable', hwritable'⟩ :=
    Source.exists_build_provided { s with subject := base } hacyclic
  refine ⟨m, inherited, hm, hinherited, fun n hn => ?_, fun n hn => ?_⟩
  · exact (hreadable n).2 (.of_superclass hacyclic hlegible hsubject hsuper
      (Candidate.isGetter_treatedAlike hdistinct _) ((hreadable' n).1 hn))
  · exact (hwritable n).2 (.of_superclass hacyclic hlegible hsubject hsuper
      Candidate.isSetter_treatedAlike ((hwritable' n).1 hn))

/-- A class that hides a getter of its superclass, a field and a question that has become a bridge. -/
def covering : List Schema.Operation := [
  .reopen Schema.baseClass {} "Base",
  .declare Schema.baseClass (.typeParameter { name := "T" }),
  .declare Schema.baseClass (.method { name := "getName", result := some .string, body := .nothing }),
  .declare Schema.baseClass (.method { name := "isReady", result := some .bool, body := .nothing }),
  .declare Schema.baseClass (.method { name := "setName", params := [.string], body := .nothing }),
  .declare Schema.baseClass (.field { name := "x", type := .int, storage := .slot "x" }),
  .reopen Schema.derivedClass {} "Derived",
  .declare Schema.derivedClass (.superclass
    { base := some Schema.baseClass, args := [.plain (.of (.builtIn .string))] }),
  .declare Schema.derivedClass (.method
    { name := "getName", result := some .string, visibility := .privateAccess, body := .nothing }),
  .declare Schema.derivedClass (.method
    { name := "isReady", result := some .bool, isBridge := true, body := .nothing }),
  .declare Schema.derivedClass (.field
    { name := "x", type := .int, storage := .fixed (.int 7), isConstant := true })]

theorem names_subset_of_superclass_covering :
    let s := Schema.run covering
    s.Acyclic ∧ s.Legible ∧ s.Distinct ∧ ∃ m inherited,
      build s Schema.derivedClass {} = .ok m ∧ build s Schema.baseClass {} = .ok inherited ∧
        inherited.readable.names = ["name", "ready", "x"] ∧ inherited.writable.names = ["name", "x"] ∧
        inherited.readable.names ⊆ m.readable.names ∧ inherited.writable.names ⊆ m.writable.names := by
  intro s
  have hacyclic : s.Acyclic := Schema.acyclic_of_rank Schema.classRank (by decide)
  have hlegible : s.Legible := Schema.legible_of_identifiers (by decide)
  have hdistinct : s.Distinct := Schema.distinct_of_listed (by decide) (by decide)
  have hsuper : (s.describe Schema.derivedClass).superclass = some
      { target := some Schema.baseClass, args := [.plain (.of (.builtIn .string))] } := rfl
  obtain ⟨m, inherited, hm, hinherited, hreadable, hwritable⟩ :=
    names_subset_of_superclass s hacyclic hlegible hdistinct hsuper rfl (by decide) {}
  obtain ⟨other, hother, hnames⟩ : ∃ other, build s Schema.baseClass {} = .ok other ∧
      other.readable.names = ["name", "ready", "x"] ∧ other.writable.names = ["name", "x"] :=
    ⟨_, rfl, by decide, by decide⟩
  obtain rfl := Except.ok.inj (hother.symm.trans hinherited)
  exact ⟨hacyclic, hlegible, hdistinct, m, other, hm, hinherited, hnames.1, hnames.2, hreadable,
    hwritable⟩

/-- The root, made to extend a class. -/
def extendedRoot : List Schema.Operation := [
  .reopen Schema.baseClass {} "Base",
  .declare Schema.baseClass (.method { name := "getName", result := some .string, body := .nothing }),
  .declare Schema.baseClass (.method { name := "setName", params := [.string], body := .nothing }),
  .reopen .object {} "object",
  .declare .object (.superclass { base := some Schema.baseClass })]

theorem extendedRoot_acyclic : (Schema.run extendedRoot).Acyclic :=
  Schema.acyclic_of_rank (fun id => if id = .object then 1 else 0) (by decide)

/-- The root shows no methods, and so none of its superclass either. -/
theorem name_lost_by_root :
    let s := Schema.run extendedRoot
    s.Acyclic ∧ s.Legible ∧ s.Distinct ∧ ∃ l m inherited,
      s.superclass? .object = some (l, Schema.baseClass) ∧
        build s .object {} = .ok m ∧ build s Schema.baseClass {} = .ok inherited ∧
        "name" ∈ inherited.readable.names ∧ "name" ∉ m.readable.names ∧
        "name" ∈ inherited.writable.names ∧ "name" ∉ m.writable.names := by
  intro s
  have hlegible : s.Legible := Schema.legible_of_identifiers (by decide)
  have hdistinct : s.Distinct := Schema.distinct_of_listed (by decide) (by decide)
  exact ⟨extendedRoot_acyclic, hlegible, hdistinct, _, _, _, rfl, rfl, rfl, by decide, by decide,
    by decide, by decide⟩

end Model
end Introspect
