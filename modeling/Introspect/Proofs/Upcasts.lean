import Introspect.Proofs.Completeness
import Introspect.Proofs.Sifting

/-! The upcasts that lead to a member. An accessor of a model makes those of the links that lead to its
member, before the member is used, and makes none if the member is static or is not used at all. -/
namespace Introspect

namespace Accessor

/-- Why the member is not tried. An ambiguous accessor has no member to try. -/
def refusal? (a : Accessor) (self : Option ObjectRef) (args : List Value) : Option Failure :=
  match a with
  | method m => (m.refusal? m.arity self args).map (.refused m.site)
  | field f => (f.refusal? f.arity self args).map (.refused f.site)
  | ambiguous ambiguity _ => some (.ambiguous ambiguity)

/-- The use of the member alone, once its object is reached. -/
def run (a : Accessor) (call : PropertyCall) (self : Option ObjectRef) (args : List Value) :
    HostM Value :=
  match a with
  | method m => HostM.forMember m.site do
    let callable ← HostM.require m.callable
    callable.run call self args
  | field f =>
    match f.use with
    | .read reader => HostM.forMember f.site do
      let reader ← HostM.require reader
      reader.run self
    | .write none => throw (.refused f.site .readOnly)
    | .write (some writer) => do
      HostM.forMember f.site (writer.run self (args.headD .empty))
      return .empty
  | ambiguous ambiguity _ => throw (.ambiguous ambiguity)

/-- Uses that are refused change nothing. Any other use makes the present upcasts of the links, in order and
once each, and then uses the member, which is not refused any more. A static member has no object, and no
upcasts are made for it. -/
structure Follows (a : Accessor) (isStatic : Bool) (route : List Link) : Prop where
  refused : ∀ call self args memory failure, a.refusal? self args = some failure →
    (a.invoke call self args).exec memory = (.error failure, memory)
  used : ∀ call self args memory, a.refusal? self args = none →
    (a.invoke call self args).exec memory =
      if isStatic then (a.run call none args).exec memory
      else (a.run call self args).exec
        { memory with upcasts := memory.upcasts ++ route.filterMap (·.upcast) }
  settled : ∀ call self args memory site reason,
    ((a.run call self args).exec memory).1 ≠ .error (.refused site reason)

variable (call : PropertyCall) (self : Option ObjectRef) (args : List Value) (memory : Memory)

theorem exec_invoke_of_refusal? {a : Accessor} {failure : Failure}
    (h : a.refusal? self args = some failure) :
    (a.invoke call self args).exec memory = (.error failure, memory) := by
  cases a with
  | ambiguous ambiguity type =>
    cases h
    rfl
  | method m | field f =>
    obtain ⟨reason, hreason, rfl⟩ := Option.map_eq_some_iff.1 h
    simp only [invoke, hreason]
    rfl

end Accessor

namespace MemberAccess

variable {access : MemberAccess} {route : List Link}

theorem reached_of_route (h : access.upcasts = route.map (·.upcast)) (memory : Memory) :
    access.reached memory = if access.isStatic then memory
      else { memory with upcasts := memory.upcasts ++ route.filterMap (·.upcast) } := by
  have hpresent : (route.map (·.upcast)).filterMap id = route.filterMap (·.upcast) := by
    rw [List.filterMap_map]
    rfl
  unfold reached Memory.upcast
  rw [h, hpresent]

/-- The object and the memory in which a member is used. -/
theorem exec_target_reached {α : Type} (h : access.upcasts = route.map (·.upcast))
    (code : Option ObjectRef → HostM α) (self : Option ObjectRef) (memory : Memory) :
    (code (access.target self)).exec (access.reached memory) =
      if access.isStatic then (code none).exec memory
      else (code self).exec { memory with upcasts := memory.upcasts ++ route.filterMap (·.upcast) } := by
  rw [reached_of_route h, target]
  split_ifs <;> rfl

end MemberAccess

namespace Accessor

variable {route : List Link}

theorem follows_method (m : MethodAccessor) (h : m.upcasts = route.map (·.upcast)) :
    (method m).Follows m.isStatic route where
  refused call self args memory _ hr := exec_invoke_of_refusal? call self args memory hr
  used call self args memory hr := by
    rw [exec_invoke_method _ _ _ _ _ (Option.map_eq_none_iff.1 hr)]
    exact MemberAccess.exec_target_reached h (fun self => (method m).run call self args) self memory
  settled call self args memory _ _ := HostM.forMember_ne_refused _ _ _ _ _

theorem exec_invoke_field (f : FieldAccessor) (call : PropertyCall) (self : Option ObjectRef)
    (args : List Value) (memory : Memory) (h : f.refusal? f.arity self args = none) :
    ((field f).invoke call self args).exec memory =
      ((field f).run call (f.target self) args).exec (f.reached memory) := by
  simp only [invoke, h, HostM.exec_bind, MemberAccess.exec_reach]
  rfl

theorem follows_field (f : FieldAccessor) (hu : f.use ≠ .write none)
    (h : f.upcasts = route.map (·.upcast)) : (field f).Follows f.isStatic route where
  refused call self args memory _ hr := exec_invoke_of_refusal? call self args memory hr
  used call self args memory hr := by
    rw [exec_invoke_field _ _ _ _ _ (Option.map_eq_none_iff.1 hr)]
    exact MemberAccess.exec_target_reached h (fun self => (field f).run call self args) self memory
  settled call self args memory site reason := by
    cases huse : f.use with
    | read reader =>
      simp only [run, huse]
      exact HostM.forMember_ne_refused _ _ _ _ _
    | write writer? =>
      cases writer? with
      | none => exact absurd huse hu
      | some writer =>
        simp only [run, huse]
        rw [HostM.exec_bind, HostM.exec_forMember]
        split <;> grind [HostM.exec_pure]

end Accessor

namespace Model.Source

variable {s : Source} {getGroups setGroups : Table String CandidateGroup} {m : Model}

theorem writing_ne_none {f : Field} {use : FieldUse} (h : writing f = some use) : use ≠ .write none := by
  unfold writing isSettable at h
  split_ifs at h with hw
  cases h
  simp only [Bool.and_eq_true] at hw
  intro hnone
  simp [FieldUse.write.inj hnone] at hw

private theorem method_of_group {isCandidate : Candidate → Bool} {typeOf : Candidate → RuntimeType}
    {groups : Table String CandidateGroup}
    (hgroups : CandidateGroup.Groups ((s.schema.shownMethods s.subject).filter isCandidate) groups)
    {accessor : String → CandidateGroup → Accessor}
    (ha : ∀ n g, ∃ c ∈ g.toList, accessor n g = s.methodAccessor c (typeOf c) ∨
      ∃ ambiguity, accessor n g = .ambiguous ambiguity (typeOf c))
    {n : String} {g : CandidateGroup} (hg : groups.get? n = some g) :
    (∃ c ∈ s.schema.shownMethods s.subject, ∃ type, accessor n g = s.methodAccessor c type) ∨
      ∃ ambiguity type, accessor n g = .ambiguous ambiguity type := by
  obtain ⟨c, hc, hmethod | ⟨ambiguity, hambiguous⟩⟩ := ha n g
  · rw [hgroups.toList_eq hg] at hc
    exact Or.inl ⟨c, (List.mem_filter.1 (List.mem_filter.1 hc).1).1, _, hmethod⟩
  · exact Or.inr ⟨ambiguity, _, hambiguous⟩

private theorem field_of_offer {use : Field → Option FieldUse}
    (hu : ∀ f u, use f = some u → u ≠ .write none) {n : String} {a : Accessor}
    (h : (s.schema.shownFields s.subject).findSome? (s.offer use n) = some a) :
    ∃ f ∈ s.schema.shownFields s.subject, ∃ u, u ≠ .write none ∧ a = s.fieldAccessor f u := by
  obtain ⟨f, hf, hoffer⟩ := List.exists_of_findSome?_eq_some h
  unfold offer at hoffer
  split_ifs at hoffer
  obtain ⟨u, huse, rfl⟩ := Option.map_eq_some_iff.1 hoffer
  exact ⟨f, hf, u, hu _ _ huse, rfl⟩

/-- An accessor is that of a method shown or of a field shown, or is ambiguous. -/
theorem Built.accessor_of_shown (h : s.Built getGroups setGroups m) {side : Side} {n : String}
    {a : Accessor} (ha : (m.side side).accessors.get? n = some a) :
    (∃ c ∈ s.schema.shownMethods s.subject, ∃ type, a = s.methodAccessor c type) ∨
      (∃ f ∈ s.schema.shownFields s.subject, ∃ use, use ≠ .write none ∧ a = s.fieldAccessor f use) ∨
      ∃ ambiguity type, a = .ambiguous ambiguity type := by
  have hside : (∃ c ∈ s.schema.shownMethods s.subject, ∃ type, a = s.methodAccessor c type) ∨
      (∃ ambiguity type, a = .ambiguous ambiguity type) ∨
      ∃ f ∈ s.schema.shownFields s.subject, ∃ use, use ≠ .write none ∧ a = s.fieldAccessor f use := by
    cases side with
    | getter =>
      rw [Model.side, h.readable] at ha
      rcases Option.or_eq_some_iff.1 ha with hmethod | ⟨_, hfield⟩
      · obtain ⟨g, hg, rfl⟩ := Option.map_eq_some_iff.1 hmethod
        exact (method_of_group h.getters s.getterOf_mem hg).imp_right Or.inl
      · refine Or.inr (Or.inr (field_of_offer ?_ hfield))
        rintro f u hu rfl
        cases hu
    | setter =>
      rw [Model.side, h.writable] at ha
      rcases Option.or_eq_some_iff.1 ha with hmethod | ⟨_, hfield⟩
      · obtain ⟨g, hg, rfl⟩ := Option.map_eq_some_iff.1 hmethod
        exact (method_of_group h.setters (s.setterOf_mem _) hg).imp_right Or.inl
      · exact Or.inr (Or.inr (field_of_offer (fun _ _ => writing_ne_none) hfield))
  exact hside.imp_right Or.symm

end Model.Source

namespace Model

/-- A chain of links leads to the type that lists a member, and the path to the member records their
upcasts: superclass links for a field, and superclass links and then interface links for a method. An
accessor follows the chain of its member, and an ambiguous one follows none. -/
theorem upcasts_along_route (schema : Schema) (subject : TypeId) (options : ModelOptions) :
    let s : Source := { schema, subject, options }
    (∀ f ∈ schema.shownFields subject, f.upcasts = f.route.map (·.upcast) ∧
      schema.Outward subject f.route f.owner ∧ f.member ∈ (schema.describe f.owner).fields) ∧
    (∀ f ∈ schema.shownMethods subject, f.upcasts = f.route.map (·.upcast) ∧
      schema.Approach subject f.route f.owner ∧ f.member ∈ (schema.describe f.owner).methods) ∧
    ∃ m, build schema subject options = .ok m ∧
      ∀ side n a, m.accessor schema side n = .ok a →
        (∃ f ∈ schema.shownMethods subject, ∃ type, a = s.methodAccessor f type ∧
          a.Follows f.member.isStatic f.route) ∨
        (∃ f ∈ schema.shownFields subject, ∃ use, a = s.fieldAccessor f use ∧
          a.Follows f.member.isStatic f.route) ∨
        ∃ ambiguity type, a = .ambiguous ambiguity type ∧ ∀ call self args memory,
          (a.invoke call self args).exec memory = (.error (.ambiguous ambiguity), memory) := by
  intro s
  refine ⟨?_, ?_, ?_⟩
  · intro f hf
    obtain ⟨step, hstep, hfound⟩ := List.mem_flatMap.1 hf
    obtain ⟨member, hmember, rfl⟩ := List.mem_map.1 hfound
    exact ⟨rfl, Schema.outward_of_mem_lineage hstep, hmember⟩
  · intro f hf
    exact ⟨rfl, Schema.shownMethods_listed subject f hf⟩
  · obtain ⟨m, hm, _⟩ := s.exists_build
    obtain ⟨getGroups, setGroups, hbuilt⟩ := s.built hm
    refine ⟨m, hm, ?_⟩
    intro side n a ha
    rcases hbuilt.accessor_of_shown (get?_of_accessor ha) with hmethod | hfield | hambiguous
    · obtain ⟨f, hf, type, rfl⟩ := hmethod
      exact Or.inl ⟨f, hf, type, rfl, Accessor.follows_method _ rfl⟩
    · obtain ⟨f, hf, use, hu, rfl⟩ := hfield
      exact Or.inr (Or.inl ⟨f, hf, use, rfl, Accessor.follows_field _ hu rfl⟩)
    · obtain ⟨ambiguity, type, rfl⟩ := hambiguous
      exact Or.inr (Or.inr ⟨ambiguity, type, rfl, fun _ _ _ _ => rfl⟩)

end Model
end Introspect
