import Introspect.Proofs.Arguments
import Introspect.Proofs.FieldRoundTrip

/-! Uses that fail and leave no trace: those that are refused, those whose arguments do not have the types that
are expected, and writes to a field. -/
namespace Introspect

/-- Objects and shared variables are as they were. Upcasts may have been made. -/
structure Memory.Keeps (m m' : Memory) : Prop where
  objects : m'.objects = m.objects
  statics : m'.statics = m.statics
  globals : m'.globals = m.globals

theorem Memory.Keeps.refl (m : Memory) : m.Keeps m := ⟨rfl, rfl, rfl⟩

/-- Some argument does not hold the type that is expected in its place. -/
def Mismatched (types : List HostType) (args : List Value) : Prop :=
  ∃ e ∈ types.zip args, e.2.type? ≠ some e.1

theorem not_mismatched_nil (args : List Value) : ¬ Mismatched [] args := fun ⟨_, he, _⟩ => nomatch he

theorem HostType.check_of_ne {t : HostType} {v : Value} (h : v.type? ≠ some t) :
    t.check v = .error .badCast := if_neg h

/-- An argument of another type than expected is among those that cannot be taken, in whatever order. -/
theorem Mismatched.exists_failure? {types : List HostType} {args : List Value} (h : Mismatched types args)
    (p : Passing) : ∃ place ∈ p.places types.length, p.failure? types args place = some .badCast := by
  obtain ⟨e, he, hne⟩ := h
  obtain ⟨place, hplace⟩ := List.mem_iff_getElem?.1 he
  obtain ⟨htype, hvalue⟩ := List.getElem?_zip_eq_some.1 hplace
  obtain ⟨hlt, -⟩ := List.getElem?_eq_some_iff.1 htype
  refine ⟨place, List.mem_append_right _ (List.mem_reverse.2 (List.mem_range.2 hlt)), ?_⟩
  simp only [Passing.failure?, htype, hvalue, if_pos hne]

namespace Callable

variable {types : List HostType} {args : List Value}

/-- The types of the arguments that are unpacked. -/
def params : Callable → List HostType
  | typed params _ _ _ => params
  | untyped _ => []

/-- How the arguments are unpacked. An untyped body has nothing to unpack. -/
def passing : Callable → Passing
  | typed _ _ _ passing => passing
  | untyped _ => {}

theorem unpack_nil (p : Passing) (args : List Value) : unpack p [] args = .ok [] := by
  have hnone : (p.places 0).findSome? (p.failure? [] args) = none :=
    List.findSome?_eq_none_iff.2 fun _ _ => rfl
  simp [unpack, hnone]

/-- Some argument ends the unpacking, be it for its type or for its copy. -/
theorem unpack_of_mismatched (p : Passing) (h : Mismatched types args) :
    ∃ cause, unpack p types args = .error cause := by
  obtain ⟨place, hplace, hfailure⟩ := h.exists_failure? p
  obtain ⟨cause, hcause⟩ : ∃ cause, (p.places types.length).findSome? (p.failure? types args) = some cause := by
    rw [← Option.isSome_iff_exists, List.findSome?_isSome_iff]
    exact ⟨place, hplace, Option.isSome_of_eq_some hfailure⟩
  unfold unpack
  split_ifs
  · exact ⟨_, rfl⟩
  · exact ⟨cause, by rw [hcause]⟩

variable {c : Callable} {cause : Failure}

/-- The body is not run. -/
theorem exec_run_of_unpack (h : unpack c.passing c.params args = .error cause) (call : PropertyCall)
    (self : Option ObjectRef) (m : Memory) : (c.run call self args).exec m = (.error cause, m) := by
  cases c with
  | untyped body => exact nomatch (unpack_nil _ _).symm.trans h
  | typed types result body passing =>
    have hunpack : unpack passing types args = .error cause := h
    simp only [run, HostM.exec_bind, HostM.exec_liftExcept, hunpack]

/-- No object is made. -/
theorem exec_construct_of_unpack (h : unpack c.passing c.params args = .error cause) (call : PropertyCall)
    (m : Memory) : (c.construct call args).exec m = (.error cause, m) := by
  cases c with
  | untyped body => exact nomatch (unpack_nil _ _).symm.trans h
  | typed types result body passing =>
    have hunpack : unpack passing types args = .error cause := h
    simp only [construct, HostM.exec_bind, HostM.exec_liftExcept, hunpack]

/-- Another body for the same parameters. -/
def withBody (c : Callable) (body : Body) : Callable :=
  match c with
  | typed params result _ passing => typed params result body passing
  | untyped _ => untyped body

@[simp] theorem params_withBody (c : Callable) (body : Body) : (c.withBody body).params = c.params := by
  cases c <;> rfl

@[simp] theorem passing_withBody (c : Callable) (body : Body) :
    (c.withBody body).passing = c.passing := by
  cases c <;> rfl

end Callable

/-- No variable is changed by an assignment of the value that fails. -/
def Value.AssignsWhole (v : Value) : Prop := ∀ (g g' : Global) f, g.assign v = (some f, g') → g' = g

/-- Only the items of a sequence are assigned one by one. -/
theorem Value.assignsWhole_of_ne_sequence {v : Value}
    (h : ∀ shape element items, v ≠ .sequence shape element items) : v.AssignsWhole := by
  intro g g' f hf
  unfold Global.assign at hf
  cases hv : v.assignFailure? with
  | none => simp [hv] at hf
  | some cause =>
    simp only [hv, Prod.mk.injEq] at hf
    rw [← hf.2]
    unfold Global.interrupted
    split
    · exact absurd rfl (h _ _ _)
    · rfl

/-- The first item is assigned before the second one fails. -/
example : ¬ (Value.sequence .list .object [.object (.int 1), .object (.record .fuse "")]).AssignsWhole := by
  intro h
  have hwhole := h { value := .sequence .list .object [.object (.int 0), .object (.int 0)], room := 2 } _ _ rfl
  cases hwhole

namespace Writer

/-- The type of the value that is written. -/
def params : Writer → List HostType
  | slot _ type => [type]
  | global _ type => [type]
  | native _ => []

variable {w : Writer} {self : Option ObjectRef} {m m' : Memory} {v : Value} {f : Failure}

theorem exec_run_of_ne {type : HostType} (hw : w.params = [type]) (h : v.type? ≠ some type)
    (self : Option ObjectRef) (m : Memory) : (w.run self v).exec m = (.error .badCast, m) := by
  cases w with
  | native code => cases hw
  | slot key own =>
    cases hw
    have hassign : type.assign v = .error .badCast := by
      rw [HostType.assign, HostType.check_of_ne h]
      rfl
    simp only [run, HostM.exec_bind, HostM.exec_liftExcept, hassign]
  | global index own =>
    cases hw
    simp only [run, HostM.exec_bind, HostM.exec_liftExcept, HostType.check_of_ne h]

theorem exec_run_of_mismatched {args : List Value} (h : Mismatched w.params args)
    (self : Option ObjectRef) (m : Memory) :
    (w.run self (args.headD .empty)).exec m = (.error .badCast, m) := by
  have hsingle {type : HostType} (hw : w.params = [type]) : (args.headD .empty).type? ≠ some type := by
    obtain ⟨e, he, hne⟩ := h
    rw [hw] at he
    cases args with
    | nil => exact nomatch he
    | cons v vs =>
      rw [List.zip_cons_cons, List.zip_nil_left, List.mem_singleton] at he
      rw [he] at hne
      exact hne
  cases hw : w with
  | native code =>
    rw [hw] at h
    exact absurd h (not_mismatched_nil args)
  | slot key type | global index type =>
    exact exec_run_of_ne rfl (hsingle (by rw [hw]; rfl)) self m

theorem eq_of_assignGlobal_failed {index : Nat} (hv : v.AssignsWhole)
    (h : m.assignGlobal index v = (some f, m')) : m' = m := by
  have hsame : m.globals.set index (m.global index) = m.globals := by
    unfold Memory.global
    by_cases hi : index < m.globals.length
    · simp [List.getD, hi]
    · exact List.set_eq_of_length_le (Nat.le_of_not_lt hi)
  unfold Memory.assignGlobal at h
  cases ha : (m.global index).assign v with
  | mk failure g =>
    simp only [ha, Prod.mk.injEq] at h
    obtain ⟨rfl, rfl⟩ := h
    rw [hv _ g f ha, hsame]

/-- A write that fails has not written, if the value is not assigned part by part. -/
theorem eq_of_failed (hw : w.params ≠ []) (hv : v.AssignsWhole)
    (h : (w.run self v).exec m = (.error f, m')) : m' = m := by
  cases w with
  | native code => exact absurd rfl hw
  | slot key type =>
    simp only [run, HostM.exec_bind, HostM.exec_liftExcept] at h
    cases ha : type.assign v with
    | error cause =>
      rw [ha] at h
      exact (Prod.mk.inj h).2.symm
    | ok w =>
      simp only [ha, HostM.exec_modify] at h
      cases h
  | global index type =>
    simp only [run, HostM.exec_bind, HostM.exec_liftExcept, HostM.exec_modifyGet] at h
    cases hc : type.check v with
    | error cause =>
      rw [hc] at h
      exact (Prod.mk.inj h).2.symm
    | ok u =>
      cases ha : m.assignGlobal index v with
      | mk failure after =>
        cases failure with
        | none => simp [hc, ha, Option.forM] at h
        | some cause =>
          have hsame := eq_of_assignGlobal_failed hv ha
          simp only [hc, ha, Option.forM, HostM.exec_throw, Prod.mk.injEq] at h
          rw [← h.2, hsame]

end Writer

namespace MemberAccess

variable {access : MemberAccess} {arity : Nat} {self : Option ObjectRef} {args : List Value}

/-- The member is hidden, or is given a wrong number of arguments, or has no object to be used on. -/
def Refuses (access : MemberAccess) (arity : Nat) (self : Option ObjectRef) (args : List Value) : Prop :=
  (access.visibility ≠ .publicAccess ∧ access.bypass = false) ∨ args.length ≠ arity ∨
    (access.isStatic = false ∧ self = none)

theorem Refuses.exists_refusal? (h : access.Refuses arity self args) :
    ∃ reason, access.refusal? arity self args = some reason := by
  unfold refusal?
  split_ifs with hhidden hcount hnull
  · exact ⟨_, rfl⟩
  · exact ⟨_, rfl⟩
  · exact ⟨_, rfl⟩
  · simp only [Refuses, Bool.not_eq_true', Option.isNone_iff_eq_none] at h hhidden hnull
    rcases h with h | h | h
    · exact absurd h hhidden
    · exact absurd h hcount
    · exact absurd h hnull

end MemberAccess

namespace Accessor

variable {a : Accessor} {call : PropertyCall} {self : Option ObjectRef} {args : List Value}
  {memory memory' : Memory} {f : Failure}

/-- Nothing of the member is tried. -/
def Refuses (a : Accessor) (self : Option ObjectRef) (args : List Value) : Prop :=
  match a with
  | method m => m.Refuses m.arity self args
  | field f => f.Refuses f.arity self args
  | ambiguous _ _ => True

theorem Refuses.exec_invoke (h : a.Refuses self args) (call : PropertyCall) (memory : Memory) :
    ∃ f, (a.invoke call self args).exec memory = (.error f, memory) := by
  obtain ⟨f, hf⟩ : ∃ f, a.refusal? self args = some f := by
    cases a with
    | ambiguous ambiguity type => exact ⟨_, rfl⟩
    | method m | field f =>
      obtain ⟨reason, hreason⟩ := MemberAccess.Refuses.exists_refusal? h
      exact ⟨_, by rw [refusal?, hreason]; rfl⟩
  exact ⟨f, exec_invoke_of_refusal? call self args memory hf⟩

/-- The types of the arguments that the host code expects. -/
def params : Accessor → List HostType
  | method m => m.callable.elim [] (·.params)
  | field f =>
    match f.use with
    | .write (some writer) => writer.params
    | _ => []
  | ambiguous _ _ => []

theorem keeps_reached (a : Accessor) (m : Memory) : m.Keeps (a.reached m) := by
  cases a with
  | ambiguous => exact .refl m
  | method access | field access =>
    unfold reached MemberAccess.reached
    dsimp only
    split_ifs
    · exact .refl m
    · exact ⟨rfl, rfl, rfl⟩

/-- A use fails without a trace if the host code does. -/
theorem keeps_of_failed
    (hcode : ∀ cause m, (a.code call (a.target self) args).exec (a.reached memory) = (.error cause, m) →
      m = a.reached memory)
    (h : (a.invoke call self args).exec memory = (.error f, memory')) : memory.Keeps memory' := by
  cases hs : a.site? with
  | none =>
    obtain ⟨_, _, rfl⟩ := eq_ambiguous_of_site?_eq_none hs
    cases h
    exact .refl memory
  | some site =>
    cases ho : a.obstacle? self args with
    | some reason =>
      rw [exec_invoke_of_obstacle? hs ho, Prod.mk.injEq] at h
      rw [← h.2]
      -- only the lack of a writer is found after the upcasts
      split_ifs
      · exact a.keeps_reached memory
      · exact .refl memory
    | none =>
      rw [Accessor.exec_invoke hs ho, HostM.exec_forMember] at h
      cases hrun : (a.code call (a.target self) args).exec (a.reached memory) with
      | mk result after =>
        cases result with
        | ok answer => simp [hrun] at h
        | error cause =>
          simp only [hrun, Prod.mk.injEq] at h
          rw [← h.2, hcode cause after hrun]
          exact a.keeps_reached memory

theorem exec_code_of_mismatched (h : Mismatched a.params args) :
    ∃ cause, ∀ call self m, (a.code call self args).exec m = (.error cause, m) := by
  cases a with
  | ambiguous => exact absurd h (not_mismatched_nil args)
  | method access =>
    cases hc : access.callable with
    | none =>
      simp only [params, hc] at h
      exact absurd h (not_mismatched_nil args)
    | some callable =>
      simp only [params, hc] at h
      obtain ⟨cause, hcause⟩ := Callable.unpack_of_mismatched callable.passing h
      refine ⟨cause, fun call self m => ?_⟩
      simp only [code, hc, HostM.require, pure_bind]
      exact Callable.exec_run_of_unpack hcause call self m
  | field access =>
    unfold params at h
    dsimp only at h
    split at h
    · next writer hu =>
      refine ⟨.badCast, fun call self m => ?_⟩
      simp only [code, hu, HostM.require, pure_bind, HostM.exec_bind, Writer.exec_run_of_mismatched h]
    · exact absurd h (not_mismatched_nil args)

theorem exec_invoke_of_mismatched (h : Mismatched a.params args) (call : PropertyCall)
    (self : Option ObjectRef) (memory : Memory) :
    ∃ f memory', (a.invoke call self args).exec memory = (.error f, memory') ∧ memory.Keeps memory' := by
  obtain ⟨cause, hcause⟩ := exec_code_of_mismatched h
  have hkeeps {f : Failure} {memory' : Memory}
      (hf : (a.invoke call self args).exec memory = (.error f, memory')) : memory.Keeps memory' :=
    keeps_of_failed (fun _ _ hrun => (Prod.mk.inj ((hcause call _ _).symm.trans hrun)).2.symm) hf
  cases hrun : (a.invoke call self args).exec memory with
  | mk result memory' =>
    cases result with
    | error f => exact ⟨f, memory', rfl, hkeeps hrun⟩
    | ok answer =>
      cases hs : a.site? with
      | some site =>
        have hok := ((a.reports hs call self args memory).returned answer).1 (by rw [hrun])
        rw [hcause] at hok
        exact nomatch hok.2
      | none =>
        obtain ⟨_, _, rfl⟩ := eq_ambiguous_of_site?_eq_none hs
        exact absurd h (not_mismatched_nil args)

theorem keeps_of_failed_write {access : FieldAccessor} {writer : Writer}
    (hu : access.use = .write (some writer)) (hw : writer.params ≠ [])
    (hv : ∀ v ∈ args, v.AssignsWhole)
    (h : ((field access).invoke call self args).exec memory = (.error f, memory')) :
    memory.Keeps memory' := by
  have hhead : (args.headD .empty).AssignsWhole := by
    cases args with
    | nil => exact Value.assignsWhole_of_ne_sequence nofun
    | cons v vs => exact hv v List.mem_cons_self
  refine keeps_of_failed (fun cause m hcode => ?_) h
  simp only [code, hu, HostM.require, pure_bind, HostM.exec_bind] at hcode
  cases hrun : (writer.run ((field access).target self) (args.headD .empty)).exec
      ((field access).reached memory) with
  | mk result after =>
    cases result with
    | ok u =>
      rw [hrun] at hcode
      cases hcode
    | error cause =>
      simp only [hrun, Prod.mk.injEq] at hcode
      rw [← hcode.2]
      exact Writer.eq_of_failed hw hhead hrun

/-- Uses that fail before the host code runs, and writes that fail, leave objects and variables alone. -/
structure FailsCleanly (a : Accessor) : Prop where
  refused : ∀ call self args memory, a.Refuses self args →
    ∃ f, (a.invoke call self args).exec memory = (.error f, memory)
  mismatched : ∀ call self args memory, Mismatched a.params args →
    ∃ f memory', (a.invoke call self args).exec memory = (.error f, memory') ∧ memory.Keeps memory'
  unwritten : ∀ access, a = .field access → access.isRead = false →
    ∀ call self args memory f memory', (∀ v ∈ args, v.AssignsWhole) →
      (a.invoke call self args).exec memory = (.error f, memory') → memory.Keeps memory'

/-- A field is written by code whose parameter is known. -/
theorem failsCleanly (hw : ∀ access writer?, a = .field access → access.use = .write writer? →
    ∃ writer, writer? = some writer ∧ writer.params ≠ []) : a.FailsCleanly where
  refused call _ _ memory h := h.exec_invoke call memory
  mismatched call self _ memory h := exec_invoke_of_mismatched h call self memory
  unwritten access ha hread call self args memory f memory' hv h := by
    cases hu : access.use with
    | read => simp [FieldAccessor.isRead, hu] at hread
    | write writer? =>
      obtain ⟨writer, rfl, hparams⟩ := hw access writer? ha hu
      rw [ha] at h
      exact keeps_of_failed_write hu hparams hv h

end Accessor

namespace Constructor

/-- The types of the arguments that the host code expects. -/
def expected (k : Constructor) : List HostType := k.factory.elim [] (·.params)

def withBody (k : Constructor) (body : Body) : Constructor :=
  { k with factory := k.factory.map (·.withBody body) }

/-- No object is made of arguments that are too few, too many or of other types than expected, and as the
outcome is the same for any body, none is run. -/
def FailsCleanly (k : Constructor) : Prop := ∀ (s : Schema) args,
  args.length ≠ k.arity ∨ Mismatched k.expected args → ∃ f, ∀ call memory,
    (k.construct s call args).exec memory = (.error f, memory) ∧
    ∀ body, ((k.withBody body).construct s call args).exec memory = (.error f, memory)

variable (k : Constructor) {args : List Value}

theorem exec_construct_of_length (h : args.length ≠ k.arity) (s : Schema) (call : PropertyCall)
    (memory : Memory) : (k.construct s call args).exec memory =
      (.error (.refused (k.site s) (.argumentCount k.arity args.length)), memory) := by
  have ho : k.obstacle? args = some (.argumentCount k.arity args.length) := if_pos h
  rw [construct_eq, ho]
  rfl

theorem exec_construct_of_unpack {factory : Callable} {cause : Failure} (hcount : args.length = k.arity)
    (hf : k.factory = some factory) (h : Callable.unpack factory.passing factory.params args = .error cause)
    (s : Schema) (call : PropertyCall) (memory : Memory) :
    (k.construct s call args).exec memory = (.error (.failed (k.site s) cause), memory) := by
  have ho : k.obstacle? args = none := by
    unfold obstacle?
    rw [if_neg (not_not.2 hcount), hf]
  rw [construct_eq, ho]
  simp only [code, hf, HostM.require, pure_bind, HostM.exec_forMember,
    Callable.exec_construct_of_unpack h]

theorem failsCleanly : k.FailsCleanly := by
  intro s args h
  by_cases hcount : args.length = k.arity
  · have hmismatched := h.resolve_left (not_not.2 hcount)
    cases hf : k.factory with
    | none =>
      simp only [expected, hf] at hmismatched
      exact absurd hmismatched (not_mismatched_nil args)
    | some factory =>
      simp only [expected, hf] at hmismatched
      obtain ⟨cause, hcause⟩ := Callable.unpack_of_mismatched factory.passing hmismatched
      refine ⟨.failed (k.site s) cause, fun call memory => ?_⟩
      refine ⟨k.exec_construct_of_unpack hcount hf hcause s call memory, fun body => ?_⟩
      have hbody : (k.withBody body).factory = some (factory.withBody body) := by
        simp only [withBody, hf, Option.map_some]
      have hunpack :
          Callable.unpack (factory.withBody body).passing (factory.withBody body).params args = .error cause := by
        rw [Callable.passing_withBody, Callable.params_withBody]
        exact hcause
      exact (k.withBody body).exec_construct_of_unpack hcount hbody hunpack s call memory
  · exact ⟨_, fun call memory => ⟨k.exec_construct_of_length hcount s call memory,
      fun body => (k.withBody body).exec_construct_of_length hcount s call memory⟩⟩

end Constructor

theorem Storage.params_of_writer? {storage : Storage} {type : HostType} {writer : Writer}
    (h : storage.writer? type = some writer) : writer.params = [type] := by
  cases storage <;> cases h <;> rfl

namespace Model

/-- Only setters write, and each writes with the writer of a field that is shown. -/
theorem Source.Built.writer_of_field {s : Source} {getGroups setGroups : Table String CandidateGroup}
    {m : Model} (h : s.Built getGroups setGroups m) {side : Side} {n : String} {access : FieldAccessor}
    (ha : (m.side side).accessors.get? n = some (.field access)) {writer? : Option Writer}
    (hu : access.use = .write writer?) :
    ∃ f ∈ s.schema.shownFields s.subject, isSettable f.member ∧ f.member.writer = writer? := by
  cases side with
  | getter =>
    rw [Model.side, h.readable] at ha
    obtain ⟨f, _, hf⟩ := s.find?_of_field reading_eq (s.getterOf_ne_field n) ha
    cases hf
    cases hu
  | setter =>
    rw [Model.side, h.writable] at ha
    obtain ⟨f, hfind, hf⟩ := s.find?_of_field writing_eq (s.setterOf_ne_field _ n) ha
    have hsettable := List.find?_some hfind
    simp only [Bool.and_eq_true] at hsettable
    cases hf
    exact ⟨f, List.mem_of_find?_eq_some hfind, hsettable.2, FieldUse.write.inj hu⟩

/-- In a model of a schema that came about in any way, refused uses change nothing at all. Arguments of the
wrong types change no object and no variable, and neither does a write to a field that fails. No constructor
makes an object of arguments that do not fit. -/
theorem failed_use_keeps (operations : List Schema.Operation) (subject : TypeId)
    (options : ModelOptions) :
    (∀ k : Constructor, k.FailsCleanly) ∧
    ∃ m, build (.run operations) subject options = .ok m ∧
      ∀ side n a, m.accessor (.run operations) side n = .ok a → a.FailsCleanly := by
  refine ⟨Constructor.failsCleanly, ?_⟩
  let s : Source := { schema := .run operations, subject, options }
  obtain ⟨m, hm, _⟩ := s.exists_build
  obtain ⟨getGroups, setGroups, hbuilt⟩ := s.built hm
  refine ⟨m, hm, fun side n a ha => Accessor.failsCleanly ?_⟩
  rintro access writer? rfl hu
  obtain ⟨f, hf, hsettable, hwriter⟩ := hbuilt.writer_of_field (get?_of_accessor ha) hu
  obtain ⟨writer, hsome⟩ : ∃ writer, f.member.writer = some writer := by
    simp only [Source.isSettable, Bool.and_eq_true] at hsettable
    exact Option.isSome_iff_exists.1 hsettable.1
  obtain ⟨type, storage, _, hstorage⟩ :=
    stored_lasting.run operations _ _ (Schema.member_mem_fields hf) writer hsome
  refine ⟨writer, hwriter.symm.trans hsome, ?_⟩
  rw [Storage.params_of_writer? hstorage]
  exact List.cons_ne_nil _ _

/-- A text is no value for the variable that lies behind an upcast, and without an object it is not tried. -/
theorem failed_use_keeps_derived :
    ∃ m a, build (.run Schema.shadowing) Schema.derivedClass {} = .ok m ∧
      m.accessor (.run Schema.shadowing) .setter "x" = .ok a ∧
      Mismatched a.params [.string "5"] ∧ a.Refuses none [.int 5] ∧
      ∀ call, (∃ f memory', (a.invoke call (some 0) [.string "5"]).exec oneObject = (.error f, memory') ∧
          oneObject.Keeps memory') ∧
        ∃ f, (a.invoke call none [.int 5]).exec oneObject = (.error f, oneObject) := by
  obtain ⟨m, a, hm, ha, hparams, hnull⟩ :
      ∃ m a, build (.run Schema.shadowing) Schema.derivedClass {} = .ok m ∧
        m.accessor (.run Schema.shadowing) .setter "x" = .ok a ∧ a.params = [.int] ∧
        a.Refuses none [.int 5] :=
    ⟨_, _, rfl, rfl, rfl, Or.inr (Or.inr ⟨rfl, rfl⟩)⟩
  have hmismatched : Mismatched a.params [.string "5"] := by
    rw [hparams]
    exact ⟨(.int, .string "5"), List.mem_singleton_self _, by decide⟩
  obtain ⟨_, m', hm', hclean⟩ := failed_use_keeps Schema.shadowing Schema.derivedClass {}
  obtain rfl : m = m' := Except.ok.inj (hm.symm.trans hm')
  have hfails := hclean .setter "x" a ha
  exact ⟨m, a, hm, ha, hmismatched, hnull, fun call =>
    ⟨hfails.mismatched call _ _ _ hmismatched, hfails.refused call _ _ _ hnull⟩⟩

end Model
end Introspect
