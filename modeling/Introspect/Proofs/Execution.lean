import Introspect.Model.Accessor
import Mathlib.Tactic.SplitIfs

/-! Host code run step by step, and the use of an accessor as one of four outcomes. -/
namespace Introspect

namespace HostM

variable {α β : Type} (m : Memory)

@[simp] theorem exec_pure (a : α) : (pure a : HostM α).exec m = (.ok a, m) := rfl

@[simp] theorem exec_throw (f : Failure) : (throw f : HostM α).exec m = (.error f, m) := rfl

@[simp] theorem exec_modify (f : Memory → Memory) :
    (modifyThe Memory f : HostM Unit).exec m = (.ok (), f m) := rfl

@[simp] theorem exec_modifyGet (f : Memory → α × Memory) :
    (modifyGetThe Memory f : HostM α).exec m = (.ok (f m).1, (f m).2) := rfl

@[simp] theorem exec_get : (getThe Memory : HostM Memory).exec m = (.ok m, m) := rfl

@[simp] theorem exec_liftExcept (r : Except Failure α) :
    (liftExcept r : HostM α).exec m = (r, m) := by
  cases r <;> rfl

theorem exec_bind (code : HostM α) (next : α → HostM β) :
    (code >>= next).exec m = match code.exec m with
      | (.ok a, m) => (next a).exec m
      | (.error f, m) => (.error f, m) := by
  unfold exec ExceptT.run StateT.run
  simp only [bind, ExceptT.bind, ExceptT.mk, StateT.bind, ExceptT.bindCont]
  rcases code m with ⟨_ | _, _⟩ <;> rfl

theorem exec_forMember (site : Site) (code : HostM α) :
    (forMember site code).exec m = match code.exec m with
      | (.ok a, m) => (.ok a, m)
      | (.error cause, m) => (.error (.failed site cause), m) := by
  unfold exec forMember ExceptT.run StateT.run
  simp only [tryCatch, tryCatchThe, MonadExceptOf.tryCatch, ExceptT.tryCatch, ExceptT.mk, bind,
    StateT.bind]
  rcases code m with ⟨_ | _, _⟩ <;> rfl

/-- Whatever host code throws is wrapped, so that it never looks like a refusal. -/
theorem forMember_ne_refused (site other : Site) (code : HostM α) (reason : Refusal) :
    ((forMember site code).exec m).1 ≠ .error (.refused other reason) := by
  rw [exec_forMember]
  split <;> simp

end HostM

namespace MemberAccess

/-- The object that the member is used on. -/
def target (a : MemberAccess) (self : Option ObjectRef) : Option ObjectRef :=
  if a.isStatic then none else self

/-- The memory in which the member is used. -/
def reached (a : MemberAccess) (m : Memory) : Memory :=
  if a.isStatic then m else m.upcast a.upcasts

theorem exec_reach (a : MemberAccess) (self : Option ObjectRef) (m : Memory) :
    (a.reach self).exec m = (.ok (a.target self), a.reached m) := by
  unfold reach target reached
  split_ifs <;> rfl

theorem refusal?_ne_readOnly (a : MemberAccess) (arity : Nat) (self : Option ObjectRef)
    (args : List Value) : a.refusal? arity self args ≠ some .readOnly := by
  unfold refusal?
  split_ifs <;> simp

end MemberAccess

namespace FieldAccessor

theorem arity_of_read {f : FieldAccessor} {reader : Option Reader} (h : f.use = .read reader) :
    f.arity = 0 := by
  simp [arity, isRead, h]

theorem arity_of_write {f : FieldAccessor} {writer : Option Writer} (h : f.use = .write writer) :
    f.arity = 1 := by
  simp [arity, isRead, h]

end FieldAccessor

namespace Accessor

variable (call : PropertyCall) (self : Option ObjectRef) (args : List Value) (memory : Memory)

theorem exec_invoke_method (m : MethodAccessor) (h : m.refusal? m.arity self args = none) :
    ((method m).invoke call self args).exec memory =
      (HostM.forMember m.site do
        let callable ← HostM.require m.callable
        callable.run call (m.target self) args).exec (m.reached memory) := by
  simp only [invoke, h, HostM.exec_bind, MemberAccess.exec_reach]

theorem exec_invoke_read (f : FieldAccessor) {reader : Option Reader} (hu : f.use = .read reader)
    (h : f.refusal? f.arity self args = none) :
    ((field f).invoke call self args).exec memory =
      (HostM.forMember f.site do
        let reader ← HostM.require reader
        reader.run (f.target self)).exec (f.reached memory) := by
  simp only [invoke, h, HostM.exec_bind, MemberAccess.exec_reach, hu]

theorem exec_invoke_write (f : FieldAccessor) {writer : Writer} (hu : f.use = .write (some writer))
    (h : f.refusal? f.arity self args = none) :
    ((field f).invoke call self args).exec memory =
      (do
        HostM.forMember f.site (writer.run (f.target self) (args.headD .empty))
        return Value.empty : HostM Value).exec (f.reached memory) := by
  simp only [invoke, h, HostM.exec_bind, MemberAccess.exec_reach, hu]

/-- Only a field that is set without a writer is refused as read-only. -/
theorem invoke_ne_readOnly (a : Accessor) (h : ∀ f, a = field f → f.use ≠ .write none) (site : Site) :
    ((a.invoke call self args).exec memory).1 ≠ .error (.refused site .readOnly) := by
  have refused_ne {own : Site} {b : MemberAccess} {arity : Nat} {reason : Refusal}
      (hr : b.refusal? arity self args = some reason) :
      ((throw (.refused own reason) : HostM Value).exec memory).1 ≠
        .error (.refused site .readOnly) := by
    have hne := b.refusal?_ne_readOnly arity self args
    simp_all
  cases a with
  | ambiguous ambiguity type => simp [invoke]
  | method m =>
    cases hr : m.refusal? m.arity self args with
    | some reason => simpa only [invoke, hr] using refused_ne hr
    | none =>
      rw [exec_invoke_method _ _ _ _ _ hr]
      exact HostM.forMember_ne_refused _ _ _ _ _
  | field f =>
    cases hr : f.refusal? f.arity self args with
    | some reason => simpa only [invoke, hr] using refused_ne hr
    | none =>
      cases hu : f.use with
      | read reader =>
        rw [exec_invoke_read _ _ _ _ _ hu hr]
        exact HostM.forMember_ne_refused _ _ _ _ _
      | write writer =>
        cases writer with
        | none => exact absurd hu (h f rfl)
        | some writer =>
          rw [exec_invoke_write _ _ _ _ _ hu hr, HostM.exec_bind, HostM.exec_forMember]
          split <;> grind [HostM.exec_pure]

end Accessor
end Introspect
