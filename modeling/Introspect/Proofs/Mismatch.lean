import Introspect.Proofs.FailedUse

/-! Uses that blame their arguments. The text of a failure tells of an argument of the wrong type whenever the
host code ends with a bad cast. The unpacking of arguments throws one, but the code itself may throw one too. -/
namespace Introspect

namespace Failure

/-- How a text begins that tells of an argument that does not have the type that is expected. -/
def mismatchTexts : List String := ["Argument type mismatch ", "Value type mismatch "]

def isOfUse : Failure → Bool
  | refused _ _ => true
  | failed _ _ => true
  | _ => false

/-- The failure of a use whose text tells of an argument of the wrong type. -/
def BlamesArguments (f : Failure) : Prop :=
  f.isOfUse ∧ ∃ text ∈ mismatchTexts, text.toList <+: f.message.toList

variable {start text rest : String}

private theorem prefix_append (h : start.toList <+: text.toList) :
    start.toList <+: (text ++ rest).toList := by
  rw [String.toList_append]
  exact h.trans (List.prefix_append _ _)

private theorem prefix_untilNul (h : start.toList <+: text.toList) (hnul : Char.ofNat 0 ∉ start.toList) :
    start.toList <+: (untilNul text).toList := by
  obtain ⟨tail, htail⟩ := h
  have hkept : ∀ c ∈ start.toList, decide (c ≠ Char.ofNat 0) = true := fun c hc =>
    decide_eq_true fun heq => hnul (heq ▸ hc)
  rw [untilNul, String.toList_ofList, ← htail, List.takeWhile_append_of_pos hkept]
  exact List.prefix_append _ _

/-- How the texts of all other failures of a use begin. -/
private def otherTexts : List String := ["Cannot ", "Constructor ", "Error ", "Wrong "]

private theorem not_blames_of_prefix {f : Failure} (hstart : start ∈ otherTexts)
    (h : start.toList <+: text.toList) (hf : f.message = untilNul text) : ¬ f.BlamesArguments := by
  rintro ⟨_, mismatch, hmismatch, hprefix⟩
  have hnul : ∀ start ∈ otherTexts, Char.ofNat 0 ∉ start.toList := by decide
  have hdiffer : ∀ start ∈ otherTexts, ∀ mismatch ∈ mismatchTexts,
      ¬ start.toList <+: mismatch.toList ∧ ¬ mismatch.toList <+: start.toList := by decide
  rw [hf] at hprefix
  rcases List.prefix_or_prefix_of_prefix (prefix_untilNul h (hnul start hstart)) hprefix with h | h
  · exact (hdiffer start hstart mismatch hmismatch).1 h
  · exact (hdiffer start hstart mismatch hmismatch).2 h

private theorem prefix_refusal (site : Site) (reason : Refusal) :
    ∃ start ∈ otherTexts, start.toList <+: (site.refusal reason).toList := by
  cases reason with
  | inaccessible visibility =>
    refine ⟨"Cannot ", by decide, ?_⟩
    iterate 3 apply prefix_append
    decide
  | argumentCount expected given =>
    refine ⟨"Wrong ", by decide, ?_⟩
    iterate 5 apply prefix_append
    decide
  | nullInstance =>
    refine ⟨"Cannot ", by decide, ?_⟩
    cases site <;> exact prefix_append (prefix_append (by decide))
  | readOnly => exact ⟨"Cannot ", by decide, prefix_append (by decide)⟩
  | noFactory => exact ⟨"Constructor ", by decide, prefix_append (prefix_append (by decide))⟩

private theorem prefix_error (site : Site) : "Error ".toList <+: site.error.toList := by
  cases site with
  | method | read | write =>
    iterate 4 apply prefix_append
    decide
  | construction => exact prefix_append (prefix_append (by decide))

private theorem prefix_mismatch {site : Site} (h : site.mismatch? = some text) :
    ∃ start ∈ mismatchTexts, start.toList <+: text.toList := by
  cases site with
  | read => cases h
  | method name declaring =>
    cases h
    refine ⟨"Argument type mismatch ", by decide, ?_⟩
    iterate 4 apply prefix_append
    decide
  | write name declaring =>
    cases h
    refine ⟨"Value type mismatch ", by decide, ?_⟩
    iterate 4 apply prefix_append
    decide
  | construction type =>
    cases h
    exact ⟨"Argument type mismatch ", by decide, prefix_append (prefix_append (by decide))⟩

theorem not_blamesArguments_refused (site : Site) (reason : Refusal) :
    ¬ (refused site reason).BlamesArguments := by
  obtain ⟨start, hstart, h⟩ := prefix_refusal site reason
  exact not_blames_of_prefix hstart h rfl

/-- Arguments are blamed for bad casts, and for nothing else. The read of a field takes no argument, and
there is no text for it. -/
theorem blamesArguments_failed_iff (site : Site) (cause : Failure) :
    (failed site cause).BlamesArguments ↔ site.mismatch?.isSome ∧ cause = .badCast := by
  constructor
  · intro h
    by_contra hother
    obtain ⟨rest, hrest⟩ : ∃ rest, (failed site cause).message = untilNul (site.error ++ rest) := by
      unfold message
      split
      · next mismatch hmismatch => exact absurd ⟨by rw [hmismatch]; rfl, rfl⟩ hother
      · split_ifs
        · exact ⟨"", by rw [String.append_empty]⟩
        · exact ⟨_, congrArg untilNul String.append_assoc⟩
    exact not_blames_of_prefix (by decide) (prefix_append (prefix_error site)) hrest h
  · rintro ⟨hsite, rfl⟩
    obtain ⟨text, htext⟩ := Option.isSome_iff_exists.1 hsite
    obtain ⟨start, hstart, h⟩ := prefix_mismatch htext
    have hnul : ∀ start ∈ mismatchTexts, Char.ofNat 0 ∉ start.toList := by decide
    refine ⟨rfl, start, hstart, ?_⟩
    unfold message
    rw [htext]
    exact prefix_untilNul h (hnul start hstart)

end Failure

/-- Fails with a text that tells of an argument of the wrong type. -/
def BlamesArguments {α : Type} (result : Except Failure α) : Prop :=
  ∃ f, result = .error f ∧ f.BlamesArguments

/-- Of a use that is reported, a bad cast in the host code is what the arguments are blamed for. -/
theorem Reports.blamesArguments_iff {α : Type} {site : Site} {obstacle? : Option Refusal}
    {inner outer : Except Failure α} (h : Reports site obstacle? inner outer) :
    BlamesArguments outer ↔ site.mismatch?.isSome ∧ obstacle? = none ∧ inner = .error .badCast := by
  constructor
  · rintro ⟨f, hf, hblames⟩
    rcases h.no_other f hf with ⟨reason, rfl⟩ | ⟨cause, rfl⟩
    · exact absurd hblames (Failure.not_blamesArguments_refused site reason)
    · obtain ⟨hsite, rfl⟩ := (Failure.blamesArguments_failed_iff site cause).1 hblames
      exact ⟨hsite, ((h.failed site .badCast).1 hf).2⟩
  · rintro ⟨hsite, hreached, hcode⟩
    exact ⟨.failed site .badCast, (h.failed site .badCast).2 ⟨rfl, hreached, hcode⟩,
      (Failure.blamesArguments_failed_iff site .badCast).2 ⟨hsite, rfl⟩⟩

/-- The place of the first argument that cannot be taken. -/
def firstUntaken? (p : Passing) (types : List HostType) (args : List Value) : Option Nat :=
  (p.places types.length).find? fun place => (p.failure? types args place).isSome

/-- The first argument that cannot be taken does not have the type that is expected. -/
def Mistyped (p : Passing) (types : List HostType) (args : List Value) : Prop :=
  ∃ place, firstUntaken? p types args = some place ∧ args[place]?.bind Value.type? ≠ types[place]?

/-- The first argument that cannot be taken has its type, and its copy throws a bad cast. -/
def Miscopied (p : Passing) (types : List HostType) (args : List Value) : Prop :=
  ∃ place, firstUntaken? p types args = some place ∧ args[place]?.bind Value.type? = types[place]? ∧
    args[place]?.bind Value.copyFailure? = some .badCast

/-- Which argument comes first is up to the order. The text is blamed if it does, and else the copy fails. -/
example : Mistyped {} [.record .fuse, .int] [.record .fuse "", .string "5"] ∧
    ¬ Mistyped { order := [0] } [.record .fuse, .int] [.record .fuse "", .string "5"] ∧
    Mistyped { order := [0], references := [0] } [.record .fuse, .int] [.record .fuse "", .string "5"] :=
  ⟨⟨1, rfl, by decide⟩, fun ⟨_, h, hne⟩ => by cases h; exact hne rfl, ⟨1, rfl, by decide⟩⟩

section Mistyped

variable {p : Passing} {types : List HostType} {args : List Value} {place : Nat} {f : Failure}

theorem Passing.failure?_eq_some_iff : p.failure? types args place = some f ↔
    ∃ t v, types[place]? = some t ∧ args[place]? = some v ∧
      (v.type? ≠ some t ∧ .badCast = f ∨
        v.type? = some t ∧ place ∉ p.references ∧ v.copyFailure? = some f) := by
  unfold failure?
  cases types[place]? with
  | none => simp
  | some t =>
    cases args[place]? with
    | none => simp
    | some v =>
      by_cases htype : v.type? = some t
      · by_cases hreference : place ∈ p.references <;> simp [htype, hreference]
      · simp [htype]

theorem exists_failure?_of_firstUntaken? (h : firstUntaken? p types args = some place) :
    ∃ cause, p.failure? types args place = some cause := by
  have hsome := List.find?_some h
  exact Option.isSome_iff_exists.1 hsome

/-- An argument that cannot be taken stands in for one of the parameters. -/
theorem exists_of_firstUntaken? (h : firstUntaken? p types args = some place) :
    ∃ t v, types[place]? = some t ∧ args[place]? = some v ∧
      (v.type? = some t → ∃ cause, v.copyFailure? = some cause) := by
  obtain ⟨cause, hcause⟩ := exists_failure?_of_firstUntaken? h
  obtain ⟨t, v, ht, hv, hwhy⟩ := Passing.failure?_eq_some_iff.1 hcause
  refine ⟨t, v, ht, hv, fun htype => ?_⟩
  rcases hwhy with ⟨hne, -⟩ | ⟨-, -, hcopy⟩
  · exact absurd htype hne
  · exact ⟨cause, hcopy⟩

theorem Mistyped.mismatched (h : Mistyped p types args) : Mismatched types args := by
  obtain ⟨place, hfirst, hne⟩ := h
  obtain ⟨t, v, ht, hv, -⟩ := exists_of_firstUntaken? hfirst
  refine ⟨(t, v), List.mem_iff_getElem?.2 ⟨place, List.getElem?_zip_eq_some.2 ⟨ht, hv⟩⟩, ?_⟩
  rwa [ht, hv] at hne

theorem Mismatched.exists_firstUntaken? (h : Mismatched types args) (p : Passing) :
    ∃ place, firstUntaken? p types args = some place := by
  obtain ⟨place, hplace, hfailure⟩ := h.exists_failure? p
  rw [← Option.isSome_iff_exists, firstUntaken?, List.find?_isSome]
  exact ⟨place, hplace, Option.isSome_of_eq_some hfailure⟩

/-- Where every argument can be copied, the types alone decide. -/
theorem mistyped_iff_mismatched (h : ∀ v ∈ args, v.copyFailure? = none) :
    Mistyped p types args ↔ Mismatched types args := by
  refine ⟨Mistyped.mismatched, fun hmismatched => ?_⟩
  obtain ⟨place, hfirst⟩ := hmismatched.exists_firstUntaken? p
  refine ⟨place, hfirst, fun htypes => ?_⟩
  obtain ⟨t, v, ht, hv, hcopy⟩ := exists_of_firstUntaken? hfirst
  rw [ht, hv] at htypes
  obtain ⟨cause, hcause⟩ := hcopy htypes
  rw [h v (List.mem_of_getElem? hv)] at hcause
  cases hcause

/-- A single argument is the first in any order. -/
theorem mistyped_singleton_iff (p : Passing) (type : HostType) (v : Value) (rest : List Value) :
    Mistyped p [type] (v :: rest) ↔ v.type? ≠ some type := by
  have honly {place : Nat} {t : HostType} (ht : [type][place]? = some t) : place = 0 :=
    Nat.lt_one_iff.1 (List.getElem?_eq_some_iff.1 ht).1
  constructor
  · rintro ⟨place, hfirst, hne⟩
    obtain ⟨t, v, ht, -, -⟩ := exists_of_firstUntaken? hfirst
    rw [honly ht] at hne
    exact hne
  · intro hne
    have hmismatched : Mismatched [type] (v :: rest) := ⟨(type, v), List.mem_cons_self, hne⟩
    obtain ⟨place, hfirst⟩ := hmismatched.exists_firstUntaken? p
    obtain ⟨t, v, ht, -, -⟩ := exists_of_firstUntaken? hfirst
    refine ⟨place, hfirst, ?_⟩
    rw [honly ht]
    exact hne

theorem not_mistyped_nil (p : Passing) (args : List Value) : ¬ Mistyped p [] args :=
  fun h => not_mismatched_nil args h.mismatched

end Mistyped

namespace Callable

variable {p : Passing} {types : List HostType} {args : List Value} {f : Failure}

/-- Unpacking fails as the first argument that cannot be taken does. -/
theorem unpack_eq_error_iff (h : types.length ≤ args.length) : unpack p types args = .error f ↔
    ∃ place, firstUntaken? p types args = some place ∧ p.failure? types args place = some f := by
  have hunpack : unpack p types args = .error f ↔
      (p.places types.length).findSome? (p.failure? types args) = some f := by
    unfold unpack
    rw [if_neg (Nat.not_lt.2 h)]
    cases (p.places types.length).findSome? (p.failure? types args) <;> simp
  rw [hunpack, List.findSome?_eq_some_iff]
  simp only [firstUntaken?, List.find?_eq_some_iff_append]
  constructor
  · rintro ⟨before, place, rest, heq, hplace, hbefore⟩
    exact ⟨place, ⟨Option.isSome_of_eq_some hplace, before, rest, heq,
      fun other hother => by rw [hbefore other hother]; rfl⟩, hplace⟩
  · rintro ⟨place, ⟨-, before, rest, heq, hbefore⟩, hplace⟩
    exact ⟨before, place, rest, heq, hplace, fun other hother => by simpa using hbefore other hother⟩

theorem unpack_eq_badCast_iff (h : types.length ≤ args.length) :
    unpack p types args = .error .badCast ↔ Mistyped p types args ∨ Miscopied p types args := by
  rw [unpack_eq_error_iff h]
  constructor
  · rintro ⟨place, hfirst, hfailure⟩
    obtain ⟨t, v, ht, hv, ⟨hne, -⟩ | ⟨htype, -, hcopy⟩⟩ := Passing.failure?_eq_some_iff.1 hfailure
    · exact Or.inl ⟨place, hfirst, by rwa [ht, hv]⟩
    · exact Or.inr ⟨place, hfirst, by rwa [ht, hv], by rwa [hv]⟩
  · rintro (⟨place, hfirst, hne⟩ | ⟨place, hfirst, htype, hcopy⟩)
    all_goals
      obtain ⟨cause, hcause⟩ := exists_failure?_of_firstUntaken? hfirst
      refine ⟨place, hfirst, hcause.trans ?_⟩
      obtain ⟨t, v, ht, hv, ⟨hother, rfl⟩ | ⟨hsame, -, hfails⟩⟩ := Passing.failure?_eq_some_iff.1 hcause
    · rfl
    · rw [ht, hv] at hne
      exact absurd hsame hne
    · rfl
    · rw [hv] at hcopy
      exact hfails.symm.trans hcopy

/-- A bad cast that is thrown by the code itself: by the copy of an argument that has the type that is
expected, or by the body once the arguments are taken. -/
def Miscasts (c : Callable) (call : PropertyCall) (self : Option ObjectRef) (args : List Value)
    (m : Memory) : Prop :=
  match c with
  | typed types _ body passing =>
    Miscopied passing types args ∨
      ∃ taken, unpack passing types args = .ok taken ∧ ((body call self taken).exec m).1 = .error .badCast
  | untyped body => ((body call self args).exec m).1 = .error .badCast

variable {c : Callable}

theorem Takes.length_params {n : Nat} (h : c.Takes n) : c.params.length = n := by
  cases c with
  | typed types result body passing => exact h
  | untyped body => cases h

/-- A callable ends with a bad cast for the type of an argument or for its own code. -/
theorem run_badCast_iff (h : c.params.length ≤ args.length) (call : PropertyCall) (self : Option ObjectRef)
    (m : Memory) : ((c.run call self args).exec m).1 = .error .badCast ↔
      Mistyped c.passing c.params args ∨ c.Miscasts call self args m := by
  cases c with
  | untyped body => simp [run, params, Miscasts, not_mistyped_nil]
  | typed types result body passing =>
    have hunpack := unpack_eq_badCast_iff (p := passing) h
    simp only [params, Callable.passing] at hunpack ⊢
    rw [Miscasts, ← or_assoc, ← hunpack, run, HostM.exec_bind, HostM.exec_liftExcept]
    cases hu : unpack passing types args with
    | error cause => simp
    | ok taken =>
      simp only [HostM.exec_bind]
      rcases hrun : (body call self taken).exec m with ⟨_ | _, _⟩ <;> simp [hrun]

/-- Code that runs on a new object decides how the making of the object ends. -/
theorem onNew_error_iff (code : Option ObjectRef → HostM Value) (m : Memory) :
    ((construct.onNew code).exec m).1 = .error f ↔
      ((code (some m.objects.length)).exec m.allocate.2).1 = .error f := by
  have hallocate : m.allocate.1 = m.objects.length := rfl
  simp only [construct.onNew, HostM.exec_bind, HostM.exec_modifyGet, hallocate]
  rcases (code (some m.objects.length)).exec m.allocate.2 with ⟨_ | _, _⟩ <;> simp

theorem construct_badCast_iff (h : c.params.length ≤ args.length) (call : PropertyCall) (m : Memory) :
    ((c.construct call args).exec m).1 = .error .badCast ↔
      Mistyped c.passing c.params args ∨ c.Miscasts call (some m.objects.length) args m.allocate.2 := by
  cases c with
  | untyped body => simp [construct, params, Miscasts, not_mistyped_nil, onNew_error_iff]
  | typed types result body passing =>
    have hunpack := unpack_eq_badCast_iff (p := passing) h
    simp only [params, Callable.passing] at hunpack ⊢
    rw [Miscasts, ← or_assoc, ← hunpack, construct, HostM.exec_bind, HostM.exec_liftExcept]
    cases hu : unpack passing types args with
    | error cause => simp
    | ok taken => simp [onNew_error_iff]

end Callable

theorem HostType.assign_eq {v : Value} (t : HostType) (h : v.type? = some t) : t.assign v =
    match v.assignFailure? with
    | some f => .error f
    | none => .ok v.content := by
  rw [assign, check, if_pos h]
  cases v.assignFailure? <;> rfl

namespace Writer

/-- The one value that is written is assigned, and no copy is made before. -/
def passing : Passing := { references := [0] }

/-- A bad cast that is thrown by the code itself: by the assignment of a value that has the type that is
expected, or by code whose parameter is not known. -/
def Miscasts (w : Writer) (self : Option ObjectRef) (v : Value) (m : Memory) : Prop :=
  match w with
  | slot _ type | global _ type => v.type? = some type ∧ v.assignFailure? = some .badCast
  | native code => ((code self v).exec m).1 = .error .badCast

variable {w : Writer} {args : List Value}

private theorem assignGlobal_fst (m : Memory) (index : Nat) (v : Value) :
    (m.assignGlobal index v).1 = v.assignFailure? := by
  unfold Memory.assignGlobal Global.assign
  cases v.assignFailure? <;> rfl

/-- A writer ends with a bad cast for the type of the value or for the assignment. -/
theorem run_badCast_iff (h : w.params.length ≤ args.length) (self : Option ObjectRef) (m : Memory) :
    ((w.run self (args.headD .empty)).exec m).1 = .error .badCast ↔
      Mistyped passing w.params args ∨ w.Miscasts self (args.headD .empty) m := by
  cases w with
  | native code => simp [run, params, Miscasts, not_mistyped_nil]
  | slot key type =>
    obtain ⟨v, rest, rfl⟩ := List.exists_cons_of_length_pos h
    rw [params, mistyped_singleton_iff, Miscasts, List.headD_cons]
    by_cases htype : v.type? = some type
    · simp only [run, HostM.exec_bind, HostM.exec_liftExcept, type.assign_eq htype]
      cases v.assignFailure? with
      | none => simp only [HostM.exec_modify, htype, ne_eq, reduceCtorEq, not_true, and_false, or_false]
      | some f => simp [htype]
    · have hrun := exec_run_of_ne (w := slot key type) rfl htype self m
      simp [hrun, htype]
  | global index type =>
    obtain ⟨v, rest, rfl⟩ := List.exists_cons_of_length_pos h
    rw [params, mistyped_singleton_iff, Miscasts, List.headD_cons]
    by_cases htype : v.type? = some type
    · simp only [run, HostM.exec_bind, HostM.exec_liftExcept, HostM.exec_modifyGet, HostType.check, htype,
        if_true, assignGlobal_fst]
      cases hv : v.assignFailure? <;> simp [Option.forM]
    · have hrun := exec_run_of_ne (w := global index type) rfl htype self m
      simp [hrun, htype]

end Writer

namespace Accessor

def passing : Accessor → Passing
  | method access => access.callable.elim {} (·.passing)
  | field _ => Writer.passing
  | ambiguous _ _ => {}

/-- The code behind the accessor throws a bad cast of its own. Readers have no arguments to blame. -/
def Miscasts (a : Accessor) (call : PropertyCall) (self : Option ObjectRef) (args : List Value)
    (m : Memory) : Prop :=
  match a with
  | method access => ∃ c, access.callable = some c ∧ c.Miscasts call self args m
  | field access => ∃ w, access.use = .write (some w) ∧ w.Miscasts self (args.headD .empty) m
  | ambiguous _ _ => False

/-- Where the code is reached, there is an argument for each type that is expected. -/
def Supplied (a : Accessor) : Prop :=
  ∀ self args, a.obstacle? self args = none → a.params.length ≤ args.length

variable {a : Accessor} {args : List Value}

theorem code_badCast_iff {site : Site} (hs : a.site? = some site) (h : a.params.length ≤ args.length)
    (call : PropertyCall) (self : Option ObjectRef) (m : Memory) :
    site.mismatch?.isSome ∧ ((a.code call self args).exec m).1 = .error .badCast ↔
      Mistyped a.passing a.params args ∨ a.Miscasts call self args m := by
  cases a with
  | ambiguous => cases hs
  | method access =>
    cases hs
    cases hc : access.callable with
    | none => simp [code, hc, params, Miscasts, not_mistyped_nil, HostM.require]
    | some c =>
      simp only [params, hc] at h
      simp [code, hc, params, passing, Miscasts, HostM.require, c.run_badCast_iff h, MethodAccessor.site,
        Site.mismatch?]
  | field access =>
    cases hs
    cases hu : access.use with
    | read reader =>
      have hsite : access.site.mismatch? = none := by
        simp [FieldAccessor.site, FieldAccessor.isRead, hu, Site.mismatch?]
      simp [hsite, params, hu, Miscasts, not_mistyped_nil]
    | write writer? =>
      have hsite : access.site.mismatch?.isSome := by
        simp [FieldAccessor.site, FieldAccessor.isRead, hu, Site.mismatch?]
      cases writer? with
      | none => simp [code, hu, params, Miscasts, not_mistyped_nil, HostM.require]
      | some w =>
        simp only [params, hu] at h
        have hrun := w.run_badCast_iff h self m
        simp only [code, hu, params, passing, Miscasts, HostM.require, pure_bind, hsite, true_and,
          FieldUse.write.injEq, Option.some.injEq, exists_eq_left', HostM.exec_bind, ← hrun]
        rcases (w.run self (args.headD .empty)).exec m with ⟨_ | _, _⟩ <;> simp

/-- Only of a method it matters what its code expects. -/
theorem supplied (h : ∀ access c, a = method access → access.callable = some c →
    c.params.length ≤ access.arity) : a.Supplied := by
  intro self args ho
  cases a with
  | ambiguous => exact Nat.zero_le _
  | method access =>
    cases hc : access.callable with
    | none => simp [params, hc]
    | some c =>
      have hlength := MemberAccess.length_of_refusal?_none ho
      simp only [params, hc, Option.elim_some, hlength]
      exact h access c rfl hc
  | field access =>
    unfold params
    dsimp only
    split
    · next w hu =>
      have ho := (obstacle?_field (by simp [hu]) self args).symm.trans ho
      have hlength := MemberAccess.length_of_refusal?_none ho
      rw [hlength, FieldAccessor.arity_of_write hu]
      cases w <;> simp [Writer.params]
    · exact Nat.zero_le _

theorem Supplied.blamesArguments_iff (h : a.Supplied) (call : PropertyCall) (self : Option ObjectRef)
    (memory : Memory) : BlamesArguments ((a.invoke call self args).exec memory).1 ↔
      a.obstacle? self args = none ∧
        (Mistyped a.passing a.params args ∨ a.Miscasts call (a.target self) args (a.reached memory)) := by
  cases hs : a.site? with
  | none =>
    obtain ⟨ambiguity, type, rfl⟩ := eq_ambiguous_of_site?_eq_none hs
    constructor
    · rintro ⟨f, hf, hblames, _⟩
      cases hf
      cases hblames
    · rintro ⟨_, hmistyped | hmiscasts⟩
      · exact absurd hmistyped (not_mistyped_nil _ args)
      · cases hmiscasts
  | some site =>
    rw [(a.reports hs call self args memory).blamesArguments_iff, and_left_comm]
    refine and_congr_right fun ho => ?_
    exact code_badCast_iff hs (h self args ho) call (a.target self) (a.reached memory)

end Accessor

namespace Constructor

def passing (k : Constructor) : Passing := k.factory.elim {} (·.passing)

/-- The code that makes the object throws a bad cast of its own. -/
def Miscasts (k : Constructor) (call : PropertyCall) (args : List Value) (m : Memory) : Prop :=
  ∃ c, k.factory = some c ∧ c.Miscasts call (some m.objects.length) args m.allocate.2

/-- Where the code is reached, there is an argument for each type that is expected. -/
def Supplied (k : Constructor) : Prop :=
  ∀ args, k.obstacle? args = none → k.expected.length ≤ args.length

variable {k : Constructor} {args : List Value}

theorem Matched.supplied (h : k.Matched) : k.Supplied := by
  intro args ho
  unfold obstacle? at ho
  split_ifs at ho with hlength
  cases hf : k.factory with
  | none => simp [expected, hf]
  | some c =>
    have hparams := (h c hf).length_params
    rw [expected, hf, Option.elim_some]
    omega

theorem Supplied.blamesArguments_iff (h : k.Supplied) (s : Schema) (call : PropertyCall) (memory : Memory) :
    BlamesArguments ((k.construct s call args).exec memory).1 ↔
      k.obstacle? args = none ∧ (Mistyped k.passing k.expected args ∨ k.Miscasts call args memory) := by
  have hsite : (k.site s).mismatch?.isSome := rfl
  rw [(k.reports s call args memory).blamesArguments_iff, and_iff_right hsite]
  refine and_congr_right fun ho => ?_
  have hlength := h args ho
  cases hf : k.factory with
  | none => simp [code, hf, expected, Miscasts, not_mistyped_nil, HostM.require]
  | some c =>
    simp only [expected, hf, Option.elim_some] at hlength
    simp only [code, hf, HostM.require, pure_bind, expected, passing, Option.elim_some, Miscasts,
      Option.some.injEq, exists_eq_left', c.construct_badCast_iff hlength]

end Constructor

namespace Model

/-- The accessors of a model bring as many arguments as the code of their methods unpacks. -/
private theorem supplied_of_accessor {operations : List Schema.Operation} {subject : TypeId}
    {options : ModelOptions} {m : Model} (hm : build (.run operations) subject options = .ok m) {side : Side}
    {n : String} {a : Accessor} (ha : m.accessor (.run operations) side n = .ok a) : a.Supplied := by
  let s : Source := { schema := .run operations, subject, options }
  obtain ⟨getGroups, setGroups, hbuilt⟩ := s.built hm
  apply Accessor.supplied
  rintro access c rfl hc
  rcases hbuilt.accessor_of_shown (get?_of_accessor ha) with
    ⟨found, hfound, type, heq⟩ | ⟨f, _, use, hu, heq⟩ | ⟨ambiguity, type, heq⟩
  · cases heq
    obtain ⟨_, hlisted⟩ := Schema.shownMethods_listed subject found hfound
    have hmatched := Schema.methods_matched.run operations found.owner found.member hlisted
    exact Nat.le_of_eq (hmatched c hc).length_params
  · cases heq
  · cases heq

/-- When the arguments of a use are blamed: the first of them that cannot be taken, in the order in which its
code takes them, does not have the type that is expected, or else the host code throws a bad cast of its own.
Without parameters only the latter is left. So it is where as many arguments are given as the code expects, and
that is so for all constructors of a schema that came about in any way, and for all accessors of its models. -/
theorem arguments_blamed (operations : List Schema.Operation) (subject : TypeId) (options : ModelOptions) :
    (∀ a : Accessor, a.Supplied → ∀ call self args memory,
      BlamesArguments ((a.invoke call self args).exec memory).1 ↔ a.obstacle? self args = none ∧
        (Mistyped a.passing a.params args ∨ a.Miscasts call (a.target self) args (a.reached memory))) ∧
    (∀ k : Constructor, k.Supplied → ∀ s call args memory,
      BlamesArguments ((k.construct s call args).exec memory).1 ↔ k.obstacle? args = none ∧
        (Mistyped k.passing k.expected args ∨ k.Miscasts call args memory)) ∧
    (∀ passing types args, (Mistyped passing types args → Mismatched types args) ∧
      (Mismatched types args → (∀ v ∈ args, v.copyFailure? = none) → Mistyped passing types args)) ∧
    (∀ id, ∀ k ∈ ((Schema.run operations).describe id).constructors, k.Supplied) ∧
    ∃ m, build (.run operations) subject options = .ok m ∧
      ∀ side n a, m.accessor (.run operations) side n = .ok a → a.Supplied := by
  refine ⟨?_, ?_, ?_, ?_, ?_⟩
  · exact fun a h call self args memory => h.blamesArguments_iff call self memory
  · exact fun k h s call args memory => h.blamesArguments_iff s call memory
  · exact fun _ types args => ⟨Mistyped.mismatched, fun h hcopies => (mistyped_iff_mismatched hcopies).2 h⟩
  · exact fun id k hk => (Schema.constructors_matched operations id k hk).supplied
  · obtain ⟨m, hm, _⟩ := Source.exists_build { schema := .run operations, subject, options }
    exact ⟨m, hm, fun side n a ha => supplied_of_accessor hm ha⟩

/-- A getter and a constructor that throw bad casts of their own, and a setter that throws nothing. -/
def casting : List Schema.Operation := [
  .reopen Schema.baseClass {} "Base",
  .declare Schema.baseClass (.constructor { params := [.int], body := .raise .badCast }),
  .declare Schema.baseClass (.method { name := "getX", result := some .int, body := .raise .badCast }),
  .declare Schema.baseClass (.method { name := "setX", params := [.int], body := .nothing })]

/-- The setter blames a text but no number, and the constructor blames a number too. -/
theorem arguments_blamed_casting :
    ∃ m setter, build (.run casting) Schema.baseClass {} = .ok m ∧
      m.accessor (.run casting) .setter "x" = .ok setter ∧
      ∃ k ∈ ((Schema.run casting).describe Schema.baseClass).constructors, ∀ call,
        BlamesArguments ((setter.invoke call (some 0) [.string "5"]).exec oneObject).1 ∧
        ¬ BlamesArguments ((setter.invoke call (some 0) [.int 5]).exec oneObject).1 ∧
        BlamesArguments ((k.construct (.run casting) call [.int 5]).exec {}).1 := by
  obtain ⟨haccessor, hconstructor, _, hconstructors, m, hm, haccessors⟩ :=
    arguments_blamed casting Schema.baseClass {}
  obtain ⟨other, setter, hother, ha, hparams, htext, hnumber, hmiscasts⟩ :
      ∃ other setter, build (.run casting) Schema.baseClass {} = .ok other ∧
        other.accessor (.run casting) .setter "x" = .ok setter ∧ setter.params = [.int] ∧
        setter.obstacle? (some 0) [.string "5"] = none ∧ setter.obstacle? (some 0) [.int 5] = none ∧
        ∀ call self memory, ¬ setter.Miscasts call self [.int 5] memory := by
    refine ⟨_, _, rfl, rfl, rfl, rfl, rfl, fun call self memory => ?_⟩
    rintro ⟨c, hc, hmiscasts⟩
    cases hc
    rcases hmiscasts with ⟨e, hfirst, _⟩ | ⟨taken, _, hbody⟩
    · cases hfirst
    · cases hbody
  obtain ⟨k, hk, hreached, hthrows⟩ :
      ∃ k ∈ ((Schema.run casting).describe Schema.baseClass).constructors, k.obstacle? [.int 5] = none ∧
        ∀ call, k.Miscasts call [.int 5] {} :=
    ⟨_, List.mem_cons_of_mem _ List.mem_cons_self, rfl, fun _ => ⟨_, rfl, Or.inr ⟨_, rfl, rfl⟩⟩⟩
  obtain rfl : m = other := Except.ok.inj (hm.symm.trans hother)
  have hblamed := haccessor setter (haccessors .setter "x" setter ha)
  refine ⟨m, setter, hm, ha, k, hk, fun call => ⟨?_, ?_, ?_⟩⟩
  · rw [hblamed, hparams, mistyped_singleton_iff]
    exact ⟨htext, Or.inl (by decide)⟩
  · rw [hblamed, hparams, mistyped_singleton_iff]
    rintro ⟨_, hmistyped | hmiscast⟩
    · exact hmistyped rfl
    · exact hmiscasts _ _ _ hmiscast
  · rw [hconstructor k (hconstructors _ k hk)]
    exact ⟨hreached, Or.inr (hthrows call)⟩

/-- A getter takes no arguments, and yet they are blamed when its body throws a bad cast. -/
theorem getter_blames_arguments :
    ∃ m getter, build (.run casting) Schema.baseClass {} = .ok m ∧
      m.accessor (.run casting) .getter "x" = .ok getter ∧ getter.params = [] ∧
      ∀ call, ∃ f, ((getter.invoke call (some 0) []).exec oneObject).1 = .error f ∧
        f.message = "Argument type mismatch calling method 'getX' of 'Base'" ∧ f.BlamesArguments ∧
        ¬ Mismatched getter.params [] := by
  refine ⟨_, _, rfl, rfl, rfl, fun call => ⟨.failed (.method "getX" "Base") .badCast, rfl, ?_, ?_, ?_⟩⟩
  · decide
  · exact (Failure.blamesArguments_failed_iff _ _).2 ⟨rfl, rfl⟩
  · exact not_mismatched_nil []

end Model
end Introspect
