import Introspect.Proofs.Outcomes
import Introspect.Proofs.Runs

/-! The number of arguments. A callable unpacks as many arguments as the erased signature beside it has
parameters, and is reached with just so many. -/
namespace Introspect

/-- Unpacks so many arguments. Of an untyped body this is not known. -/
def Callable.Takes (n : Nat) : Callable → Prop
  | typed params _ _ _ => params.length = n
  | untyped _ => False

def Method.Matched (m : Method) : Prop := ∀ c, m.callable = some c → c.Takes m.arity

def Constructor.Matched (k : Constructor) : Prop := ∀ c, k.factory = some c → c.Takes k.arity

/-- A declared signature that fits is as long as the list of host types. -/
theorem MethodDeclaration.method_matched (m : MethodDeclaration) (id : TypeId) (scope : Description)
    (h : m.fits) : (m.method id scope).Matched := by
  rintro c hc
  cases hc
  unfold Callable.Takes Method.arity method
  dsimp only
  split_ifs with hempty
  · rw [List.length_map]
  · rw [List.length_map]
    simp only [fits, hempty, Bool.false_or, decide_eq_true_eq] at h
    exact h.symm

theorem ConstructorDeclaration.constructor_matched (c : ConstructorDeclaration) (id : TypeId) :
    (c.constructor id).Matched := by
  rintro _ hf
  cases hf
  exact (List.length_map _).symm

namespace Amendment

variable (a : Amendment)

/-- Code is dropped, but never exchanged. -/
theorem method_matched (m : Method) (h : m.Matched) : (a.method m).Matched := by
  intro c hc
  unfold Amendment.method at hc ⊢
  dsimp only at hc
  split_ifs at hc
  exact h c hc

theorem constructor_matched (k : Constructor) (h : k.Matched) : (a.constructor k).Matched := by
  intro c hc
  unfold Amendment.constructor at hc ⊢
  dsimp only at hc
  split_ifs at hc
  exact h c hc

end Amendment

namespace Schema

theorem methods_matched : Lasting fun _ d => ∀ m ∈ d.methods, m.Matched :=
  .of_methods MethodDeclaration.method_matched Amendment.method_matched

theorem constructors_matched (operations : List Operation) :
    (run operations).Everywhere fun _ d => ∀ k ∈ d.constructors, k.Matched := by
  refine (Upheld.of_constructors ConstructorDeclaration.constructor_matched).run ?_ operations
  intro id d kind index a hd k hk
  cases kind with
  | method | field => exact hd k hk
  | constructor =>
    rcases exists_of_mem_modify hk with hold | ⟨k', hk', rfl⟩
    · exact hd k hold
    · exact a.constructor_matched k' (hd k' hk')

/-- Whatever the subject, a list of parameters keeps its length. -/
theorem length_paramsAt (s : Schema) (m : Method) (subject : TypeId) :
    (s.paramsAt m subject).length = m.arity := by
  unfold paramsAt Method.arity
  cases m.declaring with
  | none => rfl
  | some id =>
    dsimp only
    split_ifs with hlength
    · rw [List.length_map, hlength]
    · rfl

/-- A setter takes one argument, whatever the subject. -/
theorem exists_paramsAt_of_isSetter (s : Schema) {c : Candidate} (h : Candidate.isSetter c)
    (subject : TypeId) : ∃ type, s.paramsAt c.member subject = [type] := by
  simp only [Candidate.isSetter, Bool.and_eq_true, decide_eq_true_eq] at h
  exact List.length_eq_one_iff.1 ((s.length_paramsAt c.member subject).trans h.1)

end Schema

theorem MemberAccess.length_of_refusal?_none {access : MemberAccess} {arity : Nat}
    {self : Option ObjectRef} {args : List Value} (h : access.refusal? arity self args = none) :
    args.length = arity := by
  unfold refusal? at h
  split_ifs at h with _ hlength
  exact not_not.1 hlength

namespace Accessor

/-- The code behind the accessor takes so many arguments. A reader takes none, and a writer takes one. -/
def Takes (n : Nat) : Accessor → Prop
  | method m => ∀ c, m.callable = some c → c.Takes n
  | field f => f.arity = n
  | ambiguous _ _ => False

/-- Uses are refused, or else the code is run on as many arguments as it takes. -/
def InRange (a : Accessor) : Prop := ∀ call self args memory,
  (∃ f, a.refusal? self args = some f ∧ (a.invoke call self args).exec memory = (.error f, memory)) ∨
  ∃ site, a.site? = some site ∧ a.Takes args.length ∧ (a.invoke call self args).exec memory =
    (HostM.forMember site (a.code call (a.target self) args)).exec (a.reached memory)

theorem inRange_ambiguous (ambiguity : Ambiguity) (type : RuntimeType) :
    (ambiguous ambiguity type).InRange := fun _ _ _ _ => Or.inl ⟨_, rfl, rfl⟩

theorem inRange_method (m : MethodAccessor) (h : ∀ c, m.callable = some c → c.Takes m.arity) :
    (method m).InRange := by
  intro call self args memory
  cases hr : (method m).refusal? self args with
  | some f => exact Or.inl ⟨f, rfl, exec_invoke_of_refusal? call self args memory hr⟩
  | none =>
    have hnone := Option.map_eq_none_iff.1 hr
    refine Or.inr ⟨m.site, rfl, ?_, exec_invoke_method call self args memory m hnone⟩
    rw [MemberAccess.length_of_refusal?_none hnone]
    exact h

theorem inRange_field (f : FieldAccessor) (hu : f.use ≠ .write none) : (field f).InRange := by
  intro call self args memory
  cases hr : (field f).refusal? self args with
  | some failure => exact Or.inl ⟨failure, rfl, exec_invoke_of_refusal? call self args memory hr⟩
  | none =>
    have hnone := Option.map_eq_none_iff.1 hr
    have ho : (field f).obstacle? self args = none := (obstacle?_field hu self args).trans hnone
    exact Or.inr ⟨f.site, rfl, (MemberAccess.length_of_refusal?_none hnone).symm,
      exec_invoke rfl ho call memory⟩

end Accessor

namespace Constructor

/-- A new object is refused, or else the factory is run on as many arguments as it takes. -/
def InRange (k : Constructor) : Prop := ∀ s call args memory,
  (∃ reason, k.obstacle? args = some reason ∧
    (k.construct s call args).exec memory = (.error (.refused (k.site s) reason), memory)) ∨
  ∃ factory, k.factory = some factory ∧ factory.Takes args.length ∧
    (k.construct s call args).exec memory =
      (HostM.forMember (k.site s) (factory.construct call args)).exec memory

theorem Matched.inRange {k : Constructor} (h : k.Matched) : k.InRange := by
  intro s call args memory
  rw [construct_eq]
  cases ho : k.obstacle? args with
  | some reason => exact Or.inl ⟨reason, rfl, rfl⟩
  | none =>
    unfold obstacle? at ho
    split_ifs at ho with hlength
    cases hf : k.factory with
    | none => simp [hf] at ho
    | some factory =>
      refine Or.inr ⟨factory, rfl, ?_, ?_⟩
      · rw [not_not.1 hlength]
        exact h factory hf
      · simp only [code, hf]
        rfl

end Constructor

namespace Model

/-- In a schema that came about in any way, the erased signature of a method or a constructor is as long as
the list of arguments that its code unpacks, and a setter takes one parameter, also as its subject sees it.
So whatever the arguments, code is run on as many as it takes, through any accessor of a model and by any
constructor. -/
theorem arguments_in_range (operations : List Schema.Operation) (subject : TypeId)
    (options : ModelOptions) :
    let s := Schema.run operations
    (∀ id, (∀ m ∈ (s.describe id).methods, m.Matched) ∧
      ∀ k ∈ (s.describe id).constructors, k.Matched ∧ k.InRange) ∧
    (∀ c ∈ s.shownMethods subject, Candidate.isSetter c →
      ∃ erased type, c.member.params = [erased] ∧ s.paramsAt c.member subject = [type]) ∧
    ∃ m, build s subject options = .ok m ∧
      (∀ side n a, m.accessor s side n = .ok a → a.InRange) ∧
      ∀ k, m.defaultConstructor? = some k → k.InRange := by
  intro s
  have hmethods := Schema.methods_matched.run operations
  have hconstructors := Schema.constructors_matched operations
  refine ⟨?_, ?_, ?_⟩
  · exact fun id => ⟨hmethods id, fun k hk => ⟨hconstructors id k hk, (hconstructors id k hk).inRange⟩⟩
  · intro c _ hsetter
    obtain ⟨type, htype⟩ := s.exists_paramsAt_of_isSetter hsetter subject
    simp only [Candidate.isSetter, Bool.and_eq_true, decide_eq_true_eq] at hsetter
    obtain ⟨erased, herased⟩ := List.length_eq_one_iff.1 hsetter.1
    exact ⟨erased, type, herased, htype⟩
  · let source : Source := { schema := s, subject, options }
    obtain ⟨m, hm, _⟩ := source.exists_build
    obtain ⟨getGroups, setGroups, hbuilt⟩ := source.built hm
    refine ⟨m, hm, ?_, ?_⟩
    · intro side n a ha
      rcases hbuilt.accessor_of_shown (get?_of_accessor ha) with
        ⟨c, hc, type, rfl⟩ | ⟨f, _, use, hu, rfl⟩ | ⟨ambiguity, type, rfl⟩
      · obtain ⟨_, hlisted⟩ := Schema.shownMethods_listed subject c hc
        exact Accessor.inRange_method _ (hmethods c.owner c.member hlisted)
      · exact Accessor.inRange_field _ hu
      · exact Accessor.inRange_ambiguous ambiguity type
    · intro k hk
      rw [source.defaultConstructor?_of_build hm] at hk
      exact (hconstructors subject k (List.mem_of_find?_eq_some hk)).inRange

end Model
end Introspect
