import Introspect.Proofs.Execution
import Introspect.Proofs.Runs

/-! Where fields keep their values. A declared field reads the very place that it writes to, and what was
written there is what is read. -/
namespace Introspect

namespace Value

theorem copyFailure?_content (v : Value) : v.content.copyFailure? = v.copyFailure? := by
  cases v <;> simp [content, copyFailure?]

theorem copy_eq (v : Value) :
    v.copy = match v.copyFailure? with
      | none => .ok v
      | some f => .error f := by
  unfold copy
  cases v.copyFailure? <;> rfl

end Value

namespace HostType

theorem check_ok_iff (t : HostType) (v : Value) : t.check v = .ok () ↔ v.type? = some t := by
  unfold check
  split_ifs <;> simp_all

theorem assign_ok {t : HostType} {v w : Value} (h : t.assign v = .ok w) :
    v.type? = some t ∧ w = v.content := by
  unfold assign at h
  cases hc : t.check v with
  | error f => simp [hc, bind, Except.bind] at h
  | ok u =>
    refine ⟨(check_ok_iff t v).1 hc, ?_⟩
    cases hf : v.assignFailure? with
    | none =>
      simp only [hc, hf] at h
      cases h
      rfl
    | some f =>
      simp only [hc, hf] at h
      cases h

/-- What is received for a type also stands for it. -/
theorem conform_content {t : HostType} {v : Value} (h : v.type? = some t) :
    t.conform v.content = v.content := by
  unfold conform
  rw [if_pos]
  cases v <;> simp_all [Value.type?, Value.content]

end HostType

namespace Memory

theorem load_store (m : Memory) (self : Option ObjectRef) (key : String) (v : Value)
    (h : ∀ i, self = some i → i < m.objects.length) : (m.store self key v).load self key = v := by
  cases self with
  | none => simp [store, load, slots]
  | some i =>
    have hi := h i rfl
    simp [store, load, slots, List.getD, hi]

theorem global_assignGlobal {m m' : Memory} {index : Nat} {v : Value}
    (h : index < m.globals.length) (hdone : m.assignGlobal index v = (none, m')) :
    (m'.global index).value = v.content := by
  unfold assignGlobal Global.assign at hdone
  cases hf : v.assignFailure? with
  | some f => simp [hf] at hdone
  | none =>
    simp only [hf, Prod.mk.injEq, true_and] at hdone
    rw [← hdone]
    simp [global, List.getD, h]

end Memory

/-- What a field reads is kept where it writes to. -/
def Field.Stored (f : Field) : Prop := ∀ writer, f.writer = some writer →
  ∃ (type : HostType) (storage : Storage),
    f.reader = some (storage.reader type) ∧ storage.writer? type = some writer

theorem FieldDeclaration.field_stored (d : FieldDeclaration) (id : TypeId) (scope : Description) :
    (d.field id scope).Stored := by
  intro writer hw
  refine ⟨d.type, d.storage, rfl, ?_⟩
  have hwriter : d.writer? = some writer := hw
  unfold FieldDeclaration.writer? at hwriter
  split_ifs at hwriter
  exact hwriter

theorem Amendment.field_stored (a : Amendment) (f : Field) (h : f.Stored) : (a.field f).Stored := by
  intro writer hw
  unfold Amendment.field at hw ⊢
  cases hdrop : a.dropCode with
  | true => simp [hdrop] at hw
  | false =>
    simp only [hdrop] at hw ⊢
    exact h writer hw

theorem stored_lasting : Schema.Lasting fun _ d => ∀ f ∈ d.fields, f.Stored :=
  .of_fields FieldDeclaration.field_stored Amendment.field_stored

/-- The object or the variable that a writer writes to is there. -/
def Writer.InMemory (m : Memory) (self : Option ObjectRef) : Writer → Prop
  | slot _ _ => ∀ i, self = some i → i < m.objects.length
  | global index _ => index < m.globals.length
  | native _ => True

variable {type : HostType} {self : Option ObjectRef} {m m' : Memory} {v : Value}

namespace Writer

theorem exec_slot_ok {key : String} (h : ((slot key type).run self v).exec m = (.ok (), m')) :
    v.type? = some type ∧ m' = m.store self key v.content := by
  simp only [run, HostM.exec_bind, HostM.exec_liftExcept] at h
  cases ha : type.assign v with
  | error f => simp [ha] at h
  | ok w =>
    obtain ⟨htype, rfl⟩ := HostType.assign_ok ha
    simp only [ha, HostM.exec_modify, Prod.mk.injEq, true_and] at h
    exact ⟨htype, h.symm⟩

theorem exec_global_ok {index : Nat} (h : ((global index type).run self v).exec m = (.ok (), m')) :
    v.type? = some type ∧ m.assignGlobal index v = (none, m') := by
  simp only [run, HostM.exec_bind, HostM.exec_liftExcept, HostM.exec_modifyGet] at h
  cases hc : type.check v with
  | error f => simp [hc] at h
  | ok u =>
    refine ⟨(HostType.check_ok_iff type v).1 hc, ?_⟩
    simp only [hc] at h
    cases ha : m.assignGlobal index v with
    | mk failure after =>
      cases failure with
      | some f => simp [ha, Option.forM] at h
      | none =>
        simp only [ha, Option.forM, HostM.exec_pure, Prod.mk.injEq, true_and] at h
        rw [h]

end Writer

/-- What was written is read, whatever upcasts are made in between. -/
theorem Storage.reader_run_of_writer_run {storage : Storage} {writer : Writer}
    (hw : storage.writer? type = some writer) (hplace : writer.InMemory m self)
    (hdone : (writer.run self v).exec m = (.ok (), m')) (path : List (Option String)) :
    (((storage.reader type).run self).exec (m'.upcast path)).1 = v.content.copy := by
  cases storage with
  | fixed value => cases hw
  | slot key =>
    cases hw
    obtain ⟨htype, rfl⟩ := Writer.exec_slot_ok hdone
    have hload : ((m.store self key v.content).upcast path).load self key = v.content :=
      Memory.load_store m self key _ hplace
    simp only [reader, Reader.run, HostM.exec_bind, HostM.exec_get, HostM.exec_liftExcept, hload,
      HostType.conform_content htype]
  | global index =>
    cases hw
    obtain ⟨htype, hassign⟩ := Writer.exec_global_ok hdone
    have hvalue := Memory.global_assignGlobal hplace hassign
    have hglobal : ((m'.upcast path).global index).value = v.content := hvalue
    simp only [reader, Reader.run, HostM.exec_bind, HostM.exec_get, HostM.exec_liftExcept, hglobal,
      HostType.conform_content htype]

end Introspect
