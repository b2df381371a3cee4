import Introspect.Proofs.Upcasts

/-! The use of a member as the use of its host code. What keeps the code from being reached is told as a
refusal. Otherwise the use ends as the code does, and what the code throws becomes the cause of the failure. -/
namespace Introspect

namespace HostM

variable {α : Type}

theorem exec_forMember_fst (site : Site) (code : HostM α) (m : Memory) :
    ((forMember site code).exec m).1 = (code.exec m).1.mapError (.failed site) := by
  rw [exec_forMember]
  rcases code.exec m with ⟨_ | _, _⟩ <;> rfl

/-- What is answered after the code is no matter of the code. -/
theorem exec_forMember_bind_pure {β : Type} (site : Site) (code : HostM α) (b : β) (m : Memory) :
    (do let _ ← forMember site code; return b : HostM β).exec m =
      (forMember site do let _ ← code; return b).exec m := by
  rw [exec_bind, exec_forMember, exec_forMember, exec_bind]
  rcases code.exec m with ⟨_ | _, _⟩ <;> rfl

end HostM

/-- How the use of a member at a site ends (`outer`), by what keeps its host code from being reached and by
what the code comes to (`inner`). -/
structure Reports {α : Type} (site : Site) (obstacle? : Option Refusal) (inner outer : Except Failure α) :
    Prop where
  returned : ∀ a, outer = .ok a ↔ obstacle? = none ∧ inner = .ok a
  refused : ∀ s reason, outer = .error (.refused s reason) ↔ s = site ∧ obstacle? = some reason
  failed : ∀ s cause, outer = .error (.failed s cause) ↔
    s = site ∧ obstacle? = none ∧ inner = .error cause
  no_other : ∀ f, outer = .error f →
    (∃ reason, f = .refused site reason) ∨ ∃ cause, f = .failed site cause

namespace Reports

variable {α : Type} {site : Site} {inner : Except Failure α}

theorem of_obstacle (reason : Refusal) :
    Reports site (some reason) inner (.error (.refused site reason)) where
  returned _ := by simp
  refused s other := by simp [eq_comm]
  failed _ _ := by simp
  no_other _ h := Or.inl ⟨reason, (Except.error.inj h).symm⟩

theorem of_code : Reports site none inner (inner.mapError (.failed site)) := by
  cases inner with
  | ok a => exact ⟨by simp [Except.mapError], by simp [Except.mapError], by simp [Except.mapError], nofun⟩
  | error cause =>
    refine ⟨by simp [Except.mapError], by simp [Except.mapError], ?_, ?_⟩
    · simp [Except.mapError, eq_comm]
    · exact fun _ h => Or.inr ⟨cause, (Except.error.inj h).symm⟩

end Reports

namespace Accessor

/-- The member that is used. An ambiguous accessor has none. -/
def site? : Accessor → Option Site
  | method m => some m.site
  | field f => some f.site
  | ambiguous _ _ => none

/-- The object that the member is used on. -/
def target (a : Accessor) (self : Option ObjectRef) : Option ObjectRef :=
  match a with
  | method m => m.target self
  | field f => f.target self
  | ambiguous _ _ => self

/-- The memory in which the member is used. -/
def reached (a : Accessor) (m : Memory) : Memory :=
  match a with
  | method access => access.reached m
  | field access => access.reached m
  | ambiguous _ _ => m

/-- What keeps the host code from being reached. That nothing can write is found last. -/
def obstacle? (a : Accessor) (self : Option ObjectRef) (args : List Value) : Option Refusal :=
  match a with
  | method m => m.refusal? m.arity self args
  | field f =>
    match f.use with
    | .write none => (f.refusal? f.arity self args).or (some .readOnly)
    | _ => f.refusal? f.arity self args
  | ambiguous _ _ => none

/-- The host code behind the accessor. Code that is absent throws when it is called. -/
def code (a : Accessor) (call : PropertyCall) (self : Option ObjectRef) (args : List Value) : HostM Value :=
  match a with
  | method m => do
    let callable ← HostM.require m.callable
    callable.run call self args
  | field f =>
    match f.use with
    | .read reader => do
      let reader ← HostM.require reader
      reader.run self
    | .write writer => do
      let writer ← HostM.require writer
      writer.run self (args.headD .empty)
      return .empty
  | ambiguous ambiguity _ => throw (.ambiguous ambiguity)

variable {a : Accessor} {site : Site} {self : Option ObjectRef} {args : List Value}

theorem member_of_site? (hs : a.site? = some site) : site.member = a.member := by
  cases a with
  | ambiguous => cases hs
  | method m =>
    cases hs
    rfl
  | field f =>
    cases hs
    rw [FieldAccessor.site]
    split_ifs <;> rfl

theorem eq_ambiguous_of_site?_eq_none (hs : a.site? = none) :
    ∃ ambiguity type, a = ambiguous ambiguity type := by
  cases a with
  | method | field => cases hs
  | ambiguous ambiguity type => exact ⟨ambiguity, type, rfl⟩

theorem obstacle?_field {f : FieldAccessor} (hu : f.use ≠ .write none) (self : Option ObjectRef)
    (args : List Value) : (field f).obstacle? self args = f.refusal? f.arity self args := by
  unfold obstacle?
  cases hf : f.use with
  | read => simp only [hf]
  | write writer =>
    cases writer with
    | none => exact absurd hf hu
    | some => simp only [hf]

/-- Host code that is reached runs at the site of its member. -/
theorem exec_invoke (hs : a.site? = some site) (h : a.obstacle? self args = none) (call : PropertyCall)
    (memory : Memory) :
    (a.invoke call self args).exec memory =
      (HostM.forMember site (a.code call (a.target self) args)).exec (a.reached memory) := by
  cases a with
  | ambiguous => cases hs
  | method m =>
    cases hs
    exact exec_invoke_method call self args memory m h
  | field f =>
    cases hs
    cases hu : f.use with
    | read reader =>
      simp only [obstacle?, hu] at h
      simp only [code, hu]
      exact exec_invoke_read call self args memory f hu h
    | write writer =>
      cases writer with
      | none =>
        simp only [obstacle?, hu] at h
        cases hr : f.refusal? f.arity self args <;> simp [hr] at h
      | some writer =>
        simp only [obstacle?, hu] at h
        simp only [code, hu]
        rw [exec_invoke_write call self args memory f hu h, HostM.exec_forMember_bind_pure]
        rfl

/-- Only a field that nothing can write to is refused after its object is reached. -/
theorem exec_invoke_of_obstacle? {reason : Refusal} (hs : a.site? = some site)
    (h : a.obstacle? self args = some reason) (call : PropertyCall) (memory : Memory) :
    (a.invoke call self args).exec memory =
      (.error (.refused site reason), if reason = .readOnly then a.reached memory else memory) := by
  cases a with
  | ambiguous => cases hs
  | method m =>
    cases hs
    have hne : reason ≠ .readOnly := fun heq => m.refusal?_ne_readOnly m.arity self args (heq ▸ h)
    have hr : m.refusal? m.arity self args = some reason := h
    simp only [invoke, hr, if_neg hne]
    rfl
  | field f =>
    cases hs
    cases hr : f.refusal? f.arity self args with
    | some early =>
      have hreason : early = reason := by
        cases hu : f.use with
        | read => simpa [obstacle?, hu, hr] using h
        | write writer => cases writer <;> simpa [obstacle?, hu, hr] using h
      have hne : reason ≠ .readOnly := fun heq =>
        f.refusal?_ne_readOnly f.arity self args (by rw [hr, hreason, heq])
      simp only [invoke, hr, if_neg hne, hreason]
      rfl
    | none =>
      cases hu : f.use with
      | read => simp [obstacle?, hu, hr] at h
      | write writer =>
        cases writer with
        | some => simp [obstacle?, hu, hr] at h
        | none =>
          have hreason : reason = .readOnly := by simpa [obstacle?, hu, hr, eq_comm] using h
          simp only [invoke, hr, hu, HostM.exec_bind, MemberAccess.exec_reach, HostM.exec_throw, hreason,
            if_true]
          rfl

/-- An accessor that is not ambiguous reports how its host code ends, or why this is not reached. -/
theorem reports (hs : a.site? = some site) (call : PropertyCall) (self : Option ObjectRef)
    (args : List Value) (memory : Memory) :
    Reports site (a.obstacle? self args) ((a.code call (a.target self) args).exec (a.reached memory)).1
      ((a.invoke call self args).exec memory).1 := by
  cases ho : a.obstacle? self args with
  | some reason =>
    rw [exec_invoke_of_obstacle? hs ho]
    exact .of_obstacle reason
  | none =>
    rw [exec_invoke hs ho, HostM.exec_forMember_fst]
    exact .of_code

end Accessor

namespace Constructor

variable (c : Constructor) (s : Schema) (call : PropertyCall) (args : List Value) (memory : Memory)

/-- A detached constructor names no type. -/
def site : Site := .construction (c.declaring.elim "unknown" s.nameOf)

/-- What keeps an object from being made. -/
def obstacle? : Option Refusal :=
  if args.length ≠ c.arity then some (.argumentCount c.arity args.length)
  else match c.factory with
    | none => some .noFactory
    | some _ => none

/-- The host code that makes the object. -/
def code : HostM ObjectRef := do
  let factory ← HostM.require c.factory
  factory.construct call args

theorem construct_eq : c.construct s call args =
    match c.obstacle? args with
    | some reason => throw (.refused (c.site s) reason)
    | none => HostM.forMember (c.site s) (c.code call args) := by
  unfold construct obstacle? code site
  dsimp only
  split_ifs
  · rfl
  · cases c.factory <;> rfl

theorem reports : Reports (c.site s) (c.obstacle? args) ((c.code call args).exec memory).1
    ((c.construct s call args).exec memory).1 := by
  rw [construct_eq]
  cases c.obstacle? args with
  | some reason => exact .of_obstacle reason
  | none =>
    rw [HostM.exec_forMember_fst]
    exact .of_code

end Constructor
end Introspect
