import Introspect.Proofs.Agreement
import Introspect.Proofs.Inheritance

/-! A method or a field that is added to a type. It bears on the one property that its name stands for, in
the models of all types, and takes it from none of them. -/
namespace Introspect

namespace Declaration

def isMember : Declaration → Bool
  | method _ | field _ => true
  | _ => false

/-- The property that a member stands for, if it is one. -/
def property? : Declaration → Option String
  | method m => Naming.propertyOf? m.name
  | field f => some f.name
  | _ => none

variable {declaration : Declaration}

theorem category_of_mem_listed (h : declaration.isMember) {id : TypeId} {category : Category}
    (hm : (id, category) ∈ declaration.listed) : category = id.category := by
  cases declaration with
  | method | field =>
    obtain ⟨_, _, heq⟩ := List.mem_map.1 hm
    cases heq
    rfl
  | asInterface | asAbstract | typeParameter | superclass | interface | constructor => cases h

end Declaration

/-- More members, all of which stand for the one property, and else no change. -/
structure Description.Appended (property? : Option String) (d d' : Description) : Prop where
  name : d.name = d'.name
  category : d.category = d'.category
  typeParameters : d.typeParameters = d'.typeParameters
  superclass : d.superclass = d'.superclass
  interfaces : d.interfaces = d'.interfaces
  methods : d.methods ⊆ d'.methods
  fields : d.fields ⊆ d'.fields
  methods_apart : d.methods.filter (·.apartFrom property?) = d'.methods.filter (·.apartFrom property?)
  fields_apart : d.fields.filter (·.apartFrom property?) = d'.fields.filter (·.apartFrom property?)

namespace Description.Appended

theorem refl (property? : Option String) (d : Description) : d.Appended property? d :=
  ⟨rfl, rfl, rfl, rfl, rfl, List.Subset.refl _, List.Subset.refl _, rfl, rfl⟩

theorem extend {declaration : Declaration} (h : declaration.isMember) (id : TypeId) (d : Description) :
    d.Appended declaration.property? (declaration.extend id d) := by
  cases declaration with
  | method m =>
    refine ⟨rfl, rfl, rfl, rfl, rfl, List.subset_append_left _ _, List.Subset.refl _, ?_, rfl⟩
    have hm : (m.method id d).apartFrom (Naming.propertyOf? m.name) = false :=
      decide_eq_false fun hne => hne rfl
    simp [Declaration.extend, Declaration.property?, hm]
  | field f =>
    refine ⟨rfl, rfl, rfl, rfl, rfl, List.Subset.refl _, List.subset_append_left _ _, rfl, ?_⟩
    have hf : (f.field id d).apartFrom (some f.name) = false := decide_eq_false fun hne => hne rfl
    simp [Declaration.extend, Declaration.property?, hf]
  | asInterface | asAbstract | typeParameter | superclass | interface | constructor => cases h

end Description.Appended

namespace Schema

variable {s : Schema} {id : TypeId} {declaration : Declaration}

/-- The types that are listed on the way are described as they were before. -/
private theorem describe_listed (h : declaration.isMember) (id : TypeId) :
    (s.listAll declaration.listed).describe id = s.describe id := by
  rcases s.describe_listAll id declaration.listed with hsame | ⟨category, hm, hnew, hplaceholder⟩
  · exact hsame
  · rw [hplaceholder, describe_eq_placeholder hnew, Declaration.category_of_mem_listed h hm]

/-- Some types of a schema have more members in another, all of which stand for the one property. -/
def Appended (s t : Schema) (property? : Option String) : Prop :=
  ∀ id, (s.describe id).Appended property? (t.describe id)

theorem appended_declare (s : Schema) (id : TypeId) (h : declaration.isMember) :
    s.Appended (s.declare id declaration).2 declaration.property? := by
  intro id'
  rcases s.declare_cases id declaration with ⟨_, _, heq⟩ | ⟨_, _, _, heq⟩ | ⟨_, _, heq⟩
  · rw [heq, describe_update, describe_listed h, describe_listed h]
    split_ifs with hid
    · rw [hid.1]
      exact .extend h id _
    · exact .refl _ _
  · rw [heq, describe_listed h]
    exact .refl _ _
  · rw [heq]
    exact .refl _ _

namespace Appended

variable {t : Schema} {property? : Option String} (h : s.Appended t property?)
include h

theorem congruent (hacyclic : s.Acyclic) : s.Congruent t where
  name id := (h id).name
  primitive id := by rw [(h id).category]
  void id := by rw [(h id).category]
  typeParameters id := (h id).typeParameters
  superclass id := (h id).superclass
  interfaces id := (h id).interfaces
  steps := Or.inr hacyclic

/-- A method may hide one that was shown before, but then both stand for the same property. -/
theorem showAlike (hacyclic : s.Acyclic) (hlegible : t.Legible) (subject : TypeId) :
    s.ShowAlike t property? subject := by
  have hcongruent := h.congruent hacyclic
  have hsame : ∀ f ∈ t.visits subject, ∀ g ∈ t.visits subject,
      t.signature f.member = t.signature g.member →
        f.member.apartFrom property? = g.member.apartFrom property? := by
    intro f hf g hg heq
    have halike := hlegible.alike_of_signature_eq (visits_listed subject f hf).2
      (visits_listed subject g hg).2 heq
    unfold Method.apartFrom
    rw [halike.name]
  have hvisits : s.visits subject ⊆ t.visits subject :=
    hcongruent.visits_subset fun id => (h id).methods
  refine ⟨hcongruent.shownMethods_filter_eq (fun id => (h id).methods_apart) ?_ hsame,
    hcongruent.shownFields_filter_eq fun id => (h id).fields_apart⟩
  rw [hcongruent.signature_eq]
  exact fun f hf g hg => hsame f (hvisits hf) g (hvisits hg)

theorem outward {subject owner : TypeId} {route : List Link} (ho : s.Outward subject route owner) :
    t.Outward subject route owner := by
  induction ho with
  | here id => exact .here id
  | @step id super top l route hl ht _ ih => exact .step ((h id).superclass ▸ hl) ht ih

end Appended
end Schema

namespace Model

/-- What a method or a field offered before, it offers still, or the method that hides it does. -/
theorem Source.Provides.of_appended {s t : Schema} {property? : Option String} {subject : TypeId}
    {options : ModelOptions} (h : s.Appended t property?) (hacyclic : s.Acyclic)
    (hlegible : t.Legible) {isCandidate : Candidate → Bool}
    (halike : Candidate.TreatedAlike t isCandidate) {isUsable : Field → Bool} {n : String}
    (hprovides : Provides ⟨s, subject, options⟩ isCandidate isUsable n) :
    Provides ⟨t, subject, options⟩ isCandidate isUsable n := by
  obtain ⟨hn, ⟨c, hoffers⟩ | ⟨route, owner, houtward, f, hf, hfield⟩⟩ := hprovides
  · have hmet : c ∈ t.visits subject :=
      (h.congruent hacyclic).visits_subset (fun id => (h id).methods)
        (Schema.mem_visits_of_shown hoffers.shown)
    exact ⟨hn, Or.inl (exists_offers_of_visit (s := ⟨t, subject, options⟩) hlegible halike hmet
      hoffers.candidate hoffers.denotes)⟩
  · exact ⟨hn, Or.inr ⟨route, owner, h.outward houtward, f, (h owner).fields hf, hfield⟩⟩

/-- Properties are independent. A method or a field that is added to any type changes nothing in the models
of all types but the property that its name stands for, and this is still read and written where it was. -/
theorem declare_independent (schema : Schema) (id : TypeId) (declaration : Declaration)
    (hmember : declaration.isMember) (hacyclic : schema.Acyclic)
    (hlegible : (schema.declare id declaration).2.Legible)
    (hdistinct : (schema.declare id declaration).2.Distinct) (subject : TypeId)
    (options : ModelOptions) :
    ∃ before after, build schema subject options = .ok before ∧
      build (schema.declare id declaration).2 subject options = .ok after ∧
      ∀ side, (before.side side).AgreeApart declaration.property? (after.side side) ∧
        (before.side side).names ⊆ (after.side side).names := by
  have happended := Schema.appended_declare schema id hmember
  have hcongruent := happended.congruent hacyclic
  obtain ⟨before, after, hbefore, hafter, hagree⟩ :=
    build_agree hcongruent (happended.showAlike hacyclic hlegible subject) options
  refine ⟨before, after, hbefore, hafter, fun side => ⟨hagree side, ?_⟩⟩
  obtain ⟨_, hm, hreadable, hwritable⟩ :=
    Source.exists_build_provided ⟨schema, subject, options⟩ hacyclic
  obtain ⟨_, hm', hreadable', hwritable'⟩ := Source.exists_build_provided
    ⟨(schema.declare id declaration).2, subject, options⟩ (hcongruent.acyclic hacyclic)
  obtain rfl := Except.ok.inj (hm.symm.trans hbefore)
  obtain rfl := Except.ok.inj (hm'.symm.trans hafter)
  intro n hn
  cases side with
  | getter =>
    exact (hreadable' n).2 (.of_appended happended hacyclic hlegible
      (Candidate.isGetter_treatedAlike hdistinct _) ((hreadable n).1 hn))
  | setter =>
    exact (hwritable' n).2 (.of_appended happended hacyclic hlegible
      Candidate.isSetter_treatedAlike ((hwritable n).1 hn))

/-- A setter that hides the one of the superclass. -/
def hidingSetter : Declaration :=
  .method { name := "setName", params := [.string], body := .nothing }

theorem declare_independent_covering :
    let s := Schema.run covering
    let t := (s.declare Schema.derivedClass hidingSetter).2
    hidingSetter.isMember ∧ hidingSetter.property? = some "name" ∧ s.Acyclic ∧ t.Legible ∧ t.Distinct ∧
      ∃ before after, build s Schema.derivedClass {} = .ok before ∧
        build t Schema.derivedClass {} = .ok after ∧
        before.readable.names = ["name", "ready", "x"] ∧ before.writable.names = ["name", "x"] ∧
        ∀ side, (before.side side).AgreeApart (some "name") (after.side side) ∧
          (before.side side).names ⊆ (after.side side).names := by
  intro s t
  have hproperty : hidingSetter.property? = some "name" := by decide
  have hacyclic : s.Acyclic := Schema.acyclic_of_rank Schema.classRank (by decide)
  have hlegible : t.Legible := Schema.legible_of_identifiers (by decide)
  have hdistinct : t.Distinct := Schema.distinct_of_listed (by decide) (by decide)
  obtain ⟨before, after, hbefore, hafter, hagree⟩ := declare_independent s Schema.derivedClass
    hidingSetter rfl hacyclic hlegible hdistinct Schema.derivedClass {}
  obtain ⟨other, hother, hreadable, hwritable⟩ : ∃ other, build s Schema.derivedClass {} = .ok other ∧
      other.readable.names = ["name", "ready", "x"] ∧ other.writable.names = ["name", "x"] :=
    ⟨_, rfl, by decide, by decide⟩
  obtain rfl := Except.ok.inj (hother.symm.trans hbefore)
  rw [hproperty] at hagree
  exact ⟨rfl, hproperty, hacyclic, hlegible, hdistinct, other, after, hbefore, hafter, hreadable,
    hwritable, hagree⟩

end Model
end Introspect
