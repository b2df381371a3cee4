import Introspect.Proofs.Outcomes

/-! Failures on their way out of host code. No use of a member swallows what its host code throws, and what
is thrown beneath several uses is found at the end of a chain with one failure for each of them. -/
namespace Introspect

variable {α β γ : Type}

/-- The code comes to use other code, and goes on with what that returns. -/
def HostM.Reaches (code : HostM α) (m : Memory) (nested : HostM β) (m' : Memory) : Prop :=
  ∃ after : β → HostM α, code.exec m = (nested >>= after).exec m'

namespace HostM.Reaches

variable {code : HostM α} {nested : HostM β} {inner : HostM γ} {m m' m'' : Memory}

theorem refl (code : HostM α) (m : Memory) : code.Reaches m code m := ⟨pure, by rw [bind_pure]⟩

theorem trans (h : code.Reaches m nested m') (h' : nested.Reaches m' inner m'') :
    code.Reaches m inner m'' := by
  obtain ⟨after, heq⟩ := h
  obtain ⟨after', heq'⟩ := h'
  refine ⟨fun c => after' c >>= after, ?_⟩
  rw [heq, exec_bind, heq', exec_bind, exec_bind]
  rcases inner.exec m'' with ⟨_ | c, _⟩
  · rfl
  · exact (exec_bind _ _ _).symm

/-- Nobody stands between the nested code and what it throws. -/
theorem fails (h : code.Reaches m nested m') {f : Failure} (hf : (nested.exec m').1 = .error f) :
    (code.exec m).1 = .error f := by
  obtain ⟨after, heq⟩ := h
  rw [heq, exec_bind]
  rcases hn : nested.exec m' with ⟨result, _⟩
  rw [hn] at hf
  cases hf
  rfl

/-- Host code that uses a property uses its accessor. -/
theorem propertyCall {find : String → Side → String → Except Failure Accessor} {model property : String}
    {side : Side} {b : Accessor} (hb : find model side property = .ok b) (depth : Nat)
    (self : Option ObjectRef) (m : Memory) :
    (Accessor.propertyCall find (depth + 1) model side property self).Reaches m
      (b.invoke (Accessor.propertyCall find depth) self []) m := by
  refine ⟨pure, ?_⟩
  rw [bind_pure, Accessor.propertyCall, exec_bind, exec_liftExcept, hb]

end HostM.Reaches

/-- A failure on its way out of host code: the members used on the way whose own code fails, from the
outermost on, and what was thrown in the first place. -/
inductive Raises : {α : Type} → HostM α → Memory → List Site → Failure → Prop
  | origin {α : Type} {code : HostM α} {m : Memory} {f : Failure} (h : (code.exec m).1 = .error f) :
    Raises code m [] f
  | accessor {α : Type} {code : HostM α} {m m' : Memory} {a : Accessor} {call : PropertyCall}
    {self : Option ObjectRef} {args : List Value} {site : Site} {sites : List Site} {f : Failure}
    (hreach : code.Reaches m (a.invoke call self args) m') (hs : a.site? = some site)
    (ho : a.obstacle? self args = none)
    (h : Raises (a.code call (a.target self) args) (a.reached m') sites f) :
    Raises code m (site :: sites) f
  | constructor {α : Type} {code : HostM α} {m m' : Memory} {c : Constructor} {s : Schema}
    {call : PropertyCall} {args : List Value} {sites : List Site} {f : Failure}
    (hreach : code.Reaches m (c.construct s call args) m') (ho : c.obstacle? args = none)
    (h : Raises (c.code call args) m' sites f) :
    Raises code m (c.site s :: sites) f

/-- Each member on the way adds one failure around what it is given. -/
theorem Raises.exec_fst {code : HostM α} {m : Memory} {sites : List Site} {f : Failure}
    (h : Raises code m sites f) : (code.exec m).1 = .error (sites.foldr .failed f) := by
  -- from the bottom up: what the code of a member throws is the cause that its failure is told with
  induction h with
  | origin h => exact h
  | @accessor α code m m' a call self args site sites f hreach hs ho _ ih =>
    exact hreach.fails (((a.reports hs call self args m').failed site _).2 ⟨rfl, ho, ih⟩)
  | @constructor α code m m' c s call args sites f hreach ho _ ih =>
    exact hreach.fails (((c.reports s call args m').failed (c.site s) _).2 ⟨rfl, ho, ih⟩)

namespace Accessor

/-- Only an ambiguous accessor fails as such, and it always does. -/
theorem invoke_ambiguous_iff (a : Accessor) (call : PropertyCall) (self : Option ObjectRef)
    (args : List Value) (memory : Memory) (ambiguity : Ambiguity) :
    ((a.invoke call self args).exec memory).1 = .error (.ambiguous ambiguity) ↔
      ∃ type, a = .ambiguous ambiguity type := by
  constructor
  · intro h
    cases hs : a.site? with
    | some site =>
      rcases (a.reports hs call self args memory).no_other _ h with ⟨_, heq⟩ | ⟨_, heq⟩ <;> cases heq
    | none =>
      obtain ⟨own, type, rfl⟩ := eq_ambiguous_of_site?_eq_none hs
      cases h
      exact ⟨type, rfl⟩
  · rintro ⟨type, rfl⟩
    rfl

end Accessor

/-- What comes of the use of a member, whatever its host code throws: an accessor that is ambiguous fails as
such, and any other, like a constructor, reports under the name of its member. Through uses within uses the
failures form a chain. -/
theorem failures_reported :
    (∀ (a : Accessor) call self args memory,
      (∀ ambiguity, ((a.invoke call self args).exec memory).1 = .error (.ambiguous ambiguity) ↔
        ∃ type, a = .ambiguous ambiguity type) ∧
      (a.isAmbiguous ∨ ∃ site, a.site? = some site ∧ site.member = a.member ∧
        Reports site (a.obstacle? self args) ((a.code call (a.target self) args).exec (a.reached memory)).1
          ((a.invoke call self args).exec memory).1)) ∧
    (∀ (c : Constructor) (s : Schema) call args memory,
      (c.site s).member = c.declaring.elim "unknown" s.nameOf ∧
      Reports (c.site s) (c.obstacle? args) ((c.code call args).exec memory).1
        ((c.construct s call args).exec memory).1) ∧
    ∀ {α : Type} (code : HostM α) memory sites origin, Raises code memory sites origin →
      (code.exec memory).1 = .error (sites.foldr .failed origin) := by
  refine ⟨?_, ?_, ?_⟩
  · intro a call self args memory
    refine ⟨a.invoke_ambiguous_iff call self args memory, ?_⟩
    cases hs : a.site? with
    | some site => exact Or.inr ⟨site, rfl, Accessor.member_of_site? hs, a.reports hs call self args memory⟩
    | none =>
      obtain ⟨_, _, rfl⟩ := Accessor.eq_ambiguous_of_site?_eq_none hs
      exact Or.inl rfl
  · exact fun c s call args memory => ⟨rfl, c.reports s call args memory⟩
  · exact fun _ _ _ _ h => h.exec_fst

/-- A class whose constructor uses a property that uses another, and this one a third that is ambiguous. -/
def Schema.nesting : List Operation := [
  .reopen baseClass {} "Base",
  .declare baseClass (.constructor { params := [.int], body := .property "Base" .getter "a" }),
  .declare baseClass (.method { name := "getA", result := some .int, body := .property "Base" .getter "b" }),
  .declare baseClass (.method { name := "getB", result := some .int, body := .property "Base" .getter "c" }),
  .declare baseClass (.method { name := "getC", result := some .int, body := .nothing }),
  .declare baseClass (.method { name := "isC", result := some .bool, body := .nothing })]

theorem failures_reported_nested :
    ∃ c ∈ ((Schema.run Schema.nesting).describe Schema.baseClass).constructors,
      ∃ m ambiguity, Model.build (.run Schema.nesting) Schema.baseClass {} = .ok m ∧
        ((c.construct (.run Schema.nesting)
          (Accessor.propertyCall (fun _ => m.accessor (.run Schema.nesting)) 3) [.int 5]).exec {}).1 =
            .error (.failed (.construction "Base") (.failed (.method "getA" "Base")
              (.failed (.method "getB" "Base") (.ambiguous ambiguity)))) := by
  let s : Schema := .run Schema.nesting
  -- the code of each member comes to the use of the next property
  obtain ⟨m, hm, a, ha, hsa, hoa, hra, b, hb, hsb, hob, hrb, ambiguity, type, hambiguous⟩ :
      ∃ m, Model.build s Schema.baseClass {} = .ok m ∧
        ∃ a, m.accessor s .getter "a" = .ok a ∧ a.site? = some (.method "getA" "Base") ∧
          a.obstacle? (some 0) [] = none ∧
          (∀ call memory, (a.code call (a.target (some 0)) []).Reaches memory
            (call "Base" .getter "b" (some 0)) memory) ∧
        ∃ b, m.accessor s .getter "b" = .ok b ∧ b.site? = some (.method "getB" "Base") ∧
          b.obstacle? (some 0) [] = none ∧
          (∀ call memory, (b.code call (b.target (some 0)) []).Reaches memory
            (call "Base" .getter "c" (some 0)) memory) ∧
        ∃ ambiguity type, m.accessor s .getter "c" = .ok (.ambiguous ambiguity type) :=
    ⟨_, rfl, _, rfl, rfl, rfl, fun _ _ => ⟨_, rfl⟩, _, rfl, rfl, rfl, fun _ _ => ⟨_, rfl⟩, _, _, rfl⟩
  obtain ⟨c, hc, hsc, hoc, hrc⟩ :
      ∃ c ∈ (s.describe Schema.baseClass).constructors, c.site s = .construction "Base" ∧
        c.obstacle? [.int 5] = none ∧
        ∀ call, (c.code call [.int 5]).Reaches {} (call "Base" .getter "a" (some 0)) { objects := [∅] } :=
    ⟨_, List.mem_cons_of_mem _ List.mem_cons_self, rfl, rfl, fun _ => ⟨_, rfl⟩⟩
  refine ⟨c, hc, m, ambiguity, hm, ?_⟩
  let find : String → Side → String → Except Failure Accessor := fun _ => m.accessor s
  have hraises : Raises (c.construct s (Accessor.propertyCall find 3) [.int 5]) {}
      [c.site s, .method "getA" "Base", .method "getB" "Base"] (.ambiguous ambiguity) := by
    refine .constructor (.refl _ _) hoc ?_
    refine .accessor ((hrc _).trans (.propertyCall ha 2 _ _)) hsa hoa ?_
    refine .accessor ((hra _ _).trans (.propertyCall hb 1 _ _)) hsb hob ?_
    exact .origin (((hrb _ _).trans (.propertyCall hambiguous 0 _ _)).fails rfl)
  rw [failures_reported.2.2 _ _ _ _ hraises, hsc]
  rfl

end Introspect
