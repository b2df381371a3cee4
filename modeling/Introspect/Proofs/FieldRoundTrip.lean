import Introspect.Proofs.Completeness
import Introspect.Proofs.Storage

/-! What is set through a field of a property is what is got through a field of it, as long as both sides
of the property come down to one field. -/
namespace Introspect

variable {self : Option ObjectRef} {m m' : Memory} {v : Value}

namespace MemberAccess

variable (a : MemberAccess)

/-- Who may write may read. -/
theorem refusal?_read_of_write (h : a.refusal? 1 self [v] = none) : a.refusal? 0 self [] = none := by
  unfold refusal? at h ⊢
  split_ifs at h ⊢ <;> simp_all

theorem reached_eq_upcast (m : Memory) : ∃ path, a.reached m = m.upcast path := by
  unfold reached
  split_ifs
  · exact ⟨[], by simp [Memory.upcast]⟩
  · exact ⟨_, rfl⟩

theorem inMemory_reached {writer : Writer} (h : writer.InMemory m self) :
    writer.InMemory (a.reached m) (a.target self) := by
  obtain ⟨path, hpath⟩ := a.reached_eq_upcast m
  rw [hpath]
  cases writer with
  | native code => trivial
  | global index type => exact h
  | slot key type =>
    intro i hi
    unfold target at hi
    split_ifs at hi
    exact h i hi

end MemberAccess

namespace Accessor

variable {call : PropertyCall} {f : FieldAccessor}

/-- A write that succeeds was not refused, and its writer succeeded. -/
theorem exec_write_ok {writer : Writer} {answer : Value} (hu : f.use = .write (some writer))
    (h : ((field f).invoke call self [v]).exec m = (.ok answer, m')) :
    f.refusal? 1 self [v] = none ∧
      (writer.run (f.target self) v).exec (f.reached m) = (.ok (), m') := by
  have harity := f.arity_of_write hu
  cases hr : f.refusal? 1 self [v] with
  | some reason => simp [invoke, harity, hr] at h
  | none =>
    refine ⟨rfl, ?_⟩
    rw [exec_invoke_write _ _ _ _ _ hu (by rw [harity, hr]), HostM.exec_bind,
      HostM.exec_forMember] at h
    cases hrun : (writer.run (f.target self) v).exec (f.reached m) with
    | mk result after =>
      cases result with
      | error cause => simp [hrun] at h
      | ok u =>
        simp only [List.headD_cons, hrun, HostM.exec_pure, Prod.mk.injEq] at h
        rw [h.2]

theorem exec_read {reader : Reader} (hu : f.use = .read (some reader))
    (hr : f.refusal? 0 self [] = none) :
    (((field f).invoke call self []).exec m).1 =
      match ((reader.run (f.target self)).exec (f.reached m)).1 with
      | .ok answer => .ok answer
      | .error cause => .error (.failed f.site cause) := by
  rw [exec_invoke_read _ _ _ _ _ hu (by rw [f.arity_of_read hu, hr]), HostM.exec_forMember]
  simp only [HostM.require, pure_bind]
  rcases (reader.run (f.target self)).exec (f.reached m) with ⟨_ | _, _⟩ <;> rfl

end Accessor

namespace Model

namespace Source

variable (s : Source)

theorem getterOf_ne_field (n : String) (g : CandidateGroup) (f : FieldAccessor) :
    s.getterOf n g ≠ .field f := by
  unfold getterOf
  cases Selection.getter s.schema g.first g.rest <;> simp [getterAccessor, methodAccessor]

theorem setterOf_ne_field (getters : PropertyTable) (n : String) (g : CandidateGroup)
    (f : FieldAccessor) : s.setterOf getters n g ≠ .field f := by
  unfold setterOf
  cases Selection.setter s.schema (given? getters n) g <;> simp [setterAccessor, methodAccessor]

/-- A field accessor belongs to the first field that is usable on its side. -/
theorem find?_of_field {use : Field → Option FieldUse} {isUsable : Field → Bool}
    {useOf : Field → FieldUse} (hu : ∀ f, use f = if isUsable f then some (useOf f) else none)
    {accessor : CandidateGroup → Accessor} (ha : ∀ g f, accessor g ≠ .field f)
    {group? : Option CandidateGroup} {n : String} {fields : List (Found Field)} {f : FieldAccessor}
    (h : (group?.map accessor).or (fields.findSome? (s.offer use n)) = some (.field f)) :
    ∃ g, (fields.find? fun g => g.member.name = n && isUsable g.member) = some g ∧
      s.fieldAccessor g (useOf g.member) = .field f := by
  cases group? with
  | some group =>
    exact absurd (Option.some.inj h) (ha group f)
  | none =>
    have hoffer : fields.findSome? (s.offer use n) = some (.field f) := by simpa using h
    by_cases hn : Naming.isPropertyName n
    · rw [s.findSome?_offer hu hn, Option.map_eq_some_iff] at hoffer
      exact hoffer
    · simp [s.findSome?_offer_eq_none hn] at hoffer

theorem toMemberAccess_eq {f : Found Field} {use use' : FieldUse} {a b : FieldAccessor}
    (ha : s.fieldAccessor f use = .field a) (hb : s.fieldAccessor f use' = .field b) :
    a.use = use ∧ b.use = use' ∧ a.toMemberAccess = b.toMemberAccess := by
  cases ha
  cases hb
  exact ⟨rfl, rfl, rfl⟩

end Source

/-- Where the first field of a name can be set, it is also the first that can be set. -/
theorem find?_settable {fields : List (Found Field)} {n : String} {f : Found Field}
    (hf : (fields.find? fun g => g.member.name = n) = some f) (hs : Source.isSettable f.member) :
    (fields.find? fun g => g.member.name = n && Source.isSettable g.member) = some f := by
  induction fields with
  | nil => cases hf
  | cons g rest ih =>
    rw [List.find?_cons] at hf ⊢
    by_cases hname : g.member.name = n
    · simp only [hname, decide_true, Option.some.injEq] at hf
      subst hf
      simp [hname, hs]
    · simp only [hname, decide_false] at hf
      simpa [hname] using ih hf

/-- What is set through a field is what is then got, if the first field of that name can be set. A value
that cannot be copied fails to be got. -/
theorem get_after_set {operations : List Schema.Operation} {subject : TypeId} {options : ModelOptions}
    {m : Model} (hm : build (.run operations) subject options = .ok m) {n : String}
    {getter setter : FieldAccessor} (hget : m.readable.accessors.get? n = some (.field getter))
    (hset : m.writable.accessors.get? n = some (.field setter))
    (hfirst : ∀ f, (((Schema.run operations).shownFields subject).find? fun f =>
      f.member.name = n) = some f → Source.isSettable f.member)
    {call : PropertyCall} {self : Option ObjectRef} {v answer : Value} {memory memory' : Memory}
    (hplace : ∀ writer, setter.use = .write (some writer) → writer.InMemory memory self)
    (hdone : ((Accessor.field setter).invoke call self [v]).exec memory = (.ok answer, memory')) :
    (((Accessor.field getter).invoke call self []).exec memory').1 =
      match v.copyFailure? with
      | none => .ok v.content
      | some cause => .error (.failed getter.site cause) := by
  let s : Source := { schema := .run operations, subject, options }
  obtain ⟨getGroups, setGroups, hbuilt⟩ := s.built hm
  rw [hbuilt.readable] at hget
  rw [hbuilt.writable] at hset
  obtain ⟨f, hf, hgetter⟩ := s.find?_of_field Source.reading_eq (s.getterOf_ne_field n) hget
  obtain ⟨f', hf', hsetter⟩ := s.find?_of_field Source.writing_eq (s.setterOf_ne_field _ n) hset
  simp only [Bool.and_true] at hf
  have hs := hfirst f hf
  have hsame : f = f' := by
    rw [find?_settable hf hs] at hf'
    exact Option.some.inj hf'
  subst hsame
  obtain ⟨writer, hwriter⟩ : ∃ writer, f.member.writer = some writer := by
    simp only [Source.isSettable, Bool.and_eq_true] at hs
    exact Option.isSome_iff_exists.1 hs.1
  have hmem := Schema.member_mem_fields (List.mem_of_find?_eq_some hf)
  obtain ⟨type, storage, hreader, hstorage⟩ := stored_lasting.run operations _ _ hmem writer hwriter
  obtain ⟨hgetuse, hsetuse, haccess⟩ := s.toMemberAccess_eq hgetter hsetter
  rw [hreader] at hgetuse
  rw [hwriter] at hsetuse
  obtain ⟨hr, hrun⟩ := Accessor.exec_write_ok hsetuse hdone
  have hr' : getter.refusal? 0 self [] = none := by
    rw [haccess]
    exact setter.refusal?_read_of_write hr
  obtain ⟨path, hpath⟩ := getter.reached_eq_upcast memory'
  have hvalue := Storage.reader_run_of_writer_run hstorage
    (setter.inMemory_reached (hplace writer hsetuse)) hrun path
  rw [Accessor.exec_read hgetuse hr', hpath, haccess, hvalue, Value.copy_eq,
    Value.copyFailure?_content]
  cases v.copyFailure? <;> rfl

/-- An object without any slots yet. -/
def oneObject : Memory := { objects := [∅] }

theorem get_after_set_int :
    ∃ m getter setter memory', build (.run Schema.shadowing) Schema.baseClass {} = .ok m ∧
      m.readable.accessors.get? "x" = some (.field getter) ∧
      m.writable.accessors.get? "x" = some (.field setter) ∧
      ∀ call, ((Accessor.field setter).invoke call (some 0) [.int 5]).exec oneObject =
          (.ok .empty, memory') ∧
        (((Accessor.field getter).invoke call (some 0) []).exec memory').1 = .ok (.int 5) := by
  obtain ⟨m, getter, setter, memory', hm, hget, hset, huse, hdone⟩ :
      ∃ m getter setter memory', build (.run Schema.shadowing) Schema.baseClass {} = .ok m ∧
        m.readable.accessors.get? "x" = some (.field getter) ∧
        m.writable.accessors.get? "x" = some (.field setter) ∧
        setter.use = .write (some (.slot "x" .int)) ∧
        ∀ call, ((Accessor.field setter).invoke call (some 0) [.int 5]).exec oneObject =
          (.ok .empty, memory') :=
    ⟨_, _, _, _, rfl, rfl, rfl, rfl, fun _ => rfl⟩
  refine ⟨m, getter, setter, memory', hm, hget, hset, fun call => ⟨hdone call, ?_⟩⟩
  refine get_after_set hm hget hset ?_ ?_ (hdone call)
  · intro f hf
    have hall : (((Schema.run Schema.shadowing).shownFields Schema.baseClass).find? fun f =>
        f.member.name = "x").all fun f => Source.isSettable f.member := by decide
    rw [hf] at hall
    exact hall
  · intro writer hwriter
    rw [huse] at hwriter
    cases hwriter
    intro i hi
    cases hi
    decide

/-- The constant of the subclass is got and the variable behind it is set. A value that cannot be copied
is set, and then fails to be got. -/
theorem get_after_set_shadowed :
    (∃ m getter setter, build Schema.shadowed Schema.derivedClass {} = .ok m ∧
      m.readable.accessors.get? "x" = some (.field getter) ∧
      m.writable.accessors.get? "x" = some (.field setter) ∧
      getter.visibility = .publicAccess ∧ setter.visibility = .publicAccess ∧
      ∀ call, ∃ memory',
        ((Accessor.field setter).invoke call (some 0) [.int 5]).exec oneObject =
          (.ok .empty, memory') ∧
        (((Accessor.field getter).invoke call (some 0) []).exec memory').1 = .ok (.int 7)) ∧
    ∃ m getter setter, build Schema.shadowed Schema.baseClass {} = .ok m ∧
      m.readable.accessors.get? "note" = some (.field getter) ∧
      m.writable.accessors.get? "note" = some (.field setter) ∧
      getter.visibility = .publicAccess ∧ setter.visibility = .publicAccess ∧
      ∀ call, ∃ memory',
        ((Accessor.field setter).invoke call (some 0) [.record Schema.brittle "a"]).exec oneObject =
          (.ok .empty, memory') ∧
        (((Accessor.field getter).invoke call (some 0) []).exec memory').1 =
          .error (.failed (.read "note" "Base") (.runtime "copy blown")) := by
  constructor
  · exact ⟨_, _, _, rfl, rfl, rfl, rfl, rfl, fun call => ⟨_, rfl, rfl⟩⟩
  · exact ⟨_, _, _, rfl, rfl, rfl, rfl, rfl, fun call => ⟨_, rfl, rfl⟩⟩

end Model
end Introspect
