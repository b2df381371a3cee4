import Introspect.Proofs.Rivals

/-! Which getter of a property is chosen. The winner gives the most specific type of all, and where no type
is the most specific one, two getters conflict. -/
namespace Introspect

namespace Schema

variable {s : Schema} {best c : Candidate} {others : List Candidate}

/-- A getter ahead of others. They give types that accept its own, and none of them gives the same type
unless it is `bool`. In that case it asks a question if any of those that give `bool` does. -/
structure Leads (s : Schema) (best : Candidate) (others : List Candidate) : Prop where
  accepted : ∀ c ∈ others, s.accepts c.returns best.returns
  alone : ∀ c ∈ others, c.returns = best.returns → best.returns.isBool
  question : best.returns.isBool → ∀ c ∈ others, c.returns.isBool →
    Naming.isPredicate c.member.name → Naming.isPredicate best.member.name

/-- Two getters of which neither can be preferred. -/
def GettersClash (s : Schema) (first second : Candidate) : Prop :=
  first.returns = second.returns ∧ ¬ first.returns.isBool ∨
    ¬ s.accepts first.returns second.returns ∧ ¬ s.accepts second.returns first.returns

theorem Leads.nil (s : Schema) (best : Candidate) : s.Leads best [] where
  accepted _ h := nomatch h
  alone _ h := nomatch h
  question _ _ h := nomatch h

end Schema

theorem RuntimeType.eq_of_isBool {t u : RuntimeType} (ht : t.isBool) (hu : u.isBool) : t = u :=
  (of_decide_eq_true ht).trans (of_decide_eq_true hu).symm

theorem RuntimeType.isValid_of_isBool {t : RuntimeType} (h : t.isBool) : t.isValid := by
  rw [of_decide_eq_true h]
  rfl

namespace Schema.Leads

variable {s : Schema} {best c : Candidate} {others : List Candidate}

/-- A less specific type is passed over. -/
theorem keep (h : s.Leads best others) (hne : c.returns ≠ best.returns)
    (hc : s.accepts c.returns best.returns) : s.Leads best (c :: others) where
  accepted := List.forall_mem_cons.2 ⟨hc, h.accepted⟩
  alone := List.forall_mem_cons.2 ⟨fun heq => absurd heq hne, h.alone⟩
  question hbool := List.forall_mem_cons.2
    ⟨fun hbool' => absurd (RuntimeType.eq_of_isBool hbool' hbool) hne, h.question hbool⟩

theorem keep_bool (h : s.Leads best others) (heq : c.returns = best.returns) (hbool : best.returns.isBool)
    (hc : ¬ Naming.isPredicate c.member.name) : s.Leads best (c :: others) where
  accepted := List.forall_mem_cons.2
    ⟨by rw [heq]; exact accepts_self (RuntimeType.isValid_of_isBool hbool), h.accepted⟩
  alone := List.forall_mem_cons.2 ⟨fun _ => hbool, h.alone⟩
  question _ := List.forall_mem_cons.2 ⟨fun _ hc' => absurd hc' hc, h.question hbool⟩

theorem replace_bool (h : s.Leads best others) (heq : c.returns = best.returns)
    (hbool : best.returns.isBool) (hc : Naming.isPredicate c.member.name) :
    s.Leads c (best :: others) where
  accepted := by
    rw [heq]
    exact List.forall_mem_cons.2 ⟨accepts_self (RuntimeType.isValid_of_isBool hbool), h.accepted⟩
  alone _ _ _ := heq ▸ hbool
  question _ _ _ _ _ := hc

/-- A more specific type takes the lead. No getter before it can have given this type, for then it would
have been accepted by the best. -/
theorem replace (htop : s.Topped) (h : s.Leads best others) (hnot : ¬ s.accepts c.returns best.returns)
    (hc : s.accepts best.returns c.returns) : s.Leads c (best :: others) := by
  have hnew : ∀ d ∈ best :: others, d.returns ≠ c.returns := by
    refine List.forall_mem_cons.2 ⟨fun heq => ?_, fun d hd heq => ?_⟩
    · rw [heq] at hc hnot
      exact hnot hc
    · exact hnot (heq ▸ h.accepted d hd)
  exact {
    accepted := List.forall_mem_cons.2 ⟨hc, fun d hd => accepts_trans htop (h.accepted d hd) hc⟩
    alone := fun d hd heq => absurd heq (hnew d hd)
    question := fun hbool d hd hbool' => absurd (RuntimeType.eq_of_isBool hbool' hbool) (hnew d hd) }

/-- A rival that gives the same type as the winner is the winner, unless the type is `bool`. -/
theorem eq_of_mem {winner w : Candidate} (h : s.Leads winner others) (hw : w ∈ winner :: others)
    (heq : w.returns = winner.returns) (hbool : ¬ winner.returns.isBool) : w = winner := by
  rcases List.mem_cons.1 hw with rfl | hw
  · rfl
  · exact absurd (h.alone w hw heq) hbool

end Schema.Leads

namespace Selection

variable (s : Schema)

/-- What the comparison of two getters can come to, and why. -/
theorem getter_cases (best c : Candidate) :
    getter s best [c] = .chosen best ∧ c.returns = best.returns ∧ best.returns.isBool ∧
      ¬ Naming.isPredicate c.member.name ∨
    getter s best [c] = .chosen best ∧ c.returns ≠ best.returns ∧
      s.accepts c.returns best.returns ∨
    getter s best [c] = .chosen c ∧ c.returns = best.returns ∧ best.returns.isBool ∧
      Naming.isPredicate c.member.name ∨
    getter s best [c] = .chosen c ∧ ¬ s.accepts c.returns best.returns ∧
      s.accepts best.returns c.returns ∨
    getter s best [c] = .conflict best c ∧ s.GettersClash best c := by
  by_cases heq : c.returns = best.returns
  · cases hbool : best.returns.isBool with
    | false => simp [getter, heq, hbool, Schema.GettersClash]
    | true => cases hc : Naming.isPredicate c.member.name <;> simp [getter, heq, hbool, hc]
  · by_cases hkeep : s.accepts c.returns best.returns
    · simp [getter, heq, hkeep]
    · by_cases hreplace : s.accepts best.returns c.returns
      · simp [getter, heq, hkeep, hreplace]
      · simp [getter, heq, hkeep, hreplace, Schema.GettersClash]

private theorem getter_cons (best c : Candidate) (rest : List Candidate) :
    getter s best (c :: rest) = match getter s best [c] with
      | .chosen winner => getter s winner rest
      | .conflict first second => .conflict first second := by
  simp only [getter]
  split_ifs <;> rfl

/-- Getters are compared one after another. -/
theorem getter_eq_reduce (best : Candidate) (rest : List Candidate) :
    getter s best rest = reduce (fun best c => getter s best [c]) best rest := by
  induction rest generalizing best with
  | nil => rfl
  | cons c rest ih =>
    rw [getter_cons, reduce]
    cases getter s best [c] with
    | chosen winner => exact ih winner
    | conflict first second => rfl

theorem getter_fair : Fair fun best c => getter s best [c] := by
  intro best c
  rcases getter_cases s best c with ⟨h, _⟩ | ⟨h, _⟩ | ⟨h, _⟩ | ⟨h, _⟩ | ⟨h, _⟩
  · exact Or.inl h
  · exact Or.inl h
  · exact Or.inr (Or.inl h)
  · exact Or.inr (Or.inl h)
  · exact Or.inr (Or.inr h)

theorem getter_keeps_leads (htop : s.Topped) : Keeps (fun best c => getter s best [c]) s.Leads := by
  intro best others c hlead
  rcases getter_cases s best c with ⟨h, heq, hbool, hc⟩ | ⟨h, hne, haccepts⟩ | ⟨h, heq, hbool, hc⟩ |
    ⟨h, hnot, haccepts⟩ | ⟨h, _⟩
  · exact Or.inl ⟨h, hlead.keep_bool heq hbool hc⟩
  · exact Or.inl ⟨h, hlead.keep hne haccepts⟩
  · exact Or.inr (Or.inl ⟨h, hlead.replace_bool heq hbool hc⟩)
  · exact Or.inr (Or.inl ⟨h, hlead.replace htop hnot haccepts⟩)
  · exact Or.inr (Or.inr h)

variable {s}

/-- The winner leads all its rivals, those found before it and those found after it. -/
theorem getter_leads (htop : s.Topped) {g : CandidateGroup} {winner : Candidate}
    (h : getter s g.first g.rest = .chosen winner) :
    ∃ others, g.toList.Perm (winner :: others) ∧ s.Leads winner others := by
  rw [getter_eq_reduce] at h
  exact reduce_chosen (getter_keeps_leads s htop) (.nil s g.first) h

theorem getters_clash {g : CandidateGroup} {first second : Candidate}
    (h : getter s g.first g.rest = .conflict first second) :
    [first, second].Sublist g.toList ∧ s.GettersClash first second := by
  rw [getter_eq_reduce] at h
  obtain ⟨hpair, hconflict⟩ := reduce_conflict (getter_fair s) h
  refine ⟨hpair, ?_⟩
  rcases getter_cases s first second with ⟨h, _⟩ | ⟨h, _⟩ | ⟨h, _⟩ | ⟨h, _⟩ | ⟨_, hclash⟩
  · cases h.symm.trans hconflict
  · cases h.symm.trans hconflict
  · cases h.symm.trans hconflict
  · cases h.symm.trans hconflict
  · exact hclash

end Selection

namespace Model

open CandidateGroup Candidate

namespace Source

variable (s : Source)

/-- What the getters of a property come to. Either one of them leads all the others, or two of them clash
and are reported, and the first of these gives the type: the one that the subject sees. -/
inductive GetterVerdict (rivals : List Candidate) : Accessor → Prop
  | chosen {winner : Candidate} {others : List Candidate} (hothers : rivals.Perm (winner :: others))
      (hleads : s.schema.Leads winner others) :
      GetterVerdict rivals (s.methodAccessor winner (s.schema.returnsAt winner.member s.subject))
  | conflict {first second : Candidate} {ambiguity : Ambiguity}
      (hpair : [first, second].Sublist rivals) (hclash : s.schema.GettersClash first second)
      (ha : ambiguity.a = s.schema.typeName first.returns)
      (hb : ambiguity.b = s.schema.typeName second.returns) :
      GetterVerdict rivals (.ambiguous ambiguity (s.schema.returnsAt first.member s.subject))

/-- Each property that some of the methods found are getters of has the getter they come to, and its
type. -/
def DecidesGetters (found : List Candidate) (t : PropertyTable) : Prop :=
  ∀ n, rivals (isGetter s.options.strictPredicates) found n ≠ [] →
    ∃ a, t.accessors.get? n = some a ∧ t.types.get? n = some a.type ∧
      s.GetterVerdict (rivals (isGetter s.options.strictPredicates) found n) a

variable {s}

theorem getterOf_verdict (htop : s.schema.Topped) (n : String) (g : CandidateGroup) :
    s.GetterVerdict g.toList (s.getterOf n g) := by
  unfold getterOf
  cases h : Selection.getter s.schema g.first g.rest with
  | chosen winner =>
    obtain ⟨others, hothers, hleads⟩ := Selection.getter_leads htop h
    exact .chosen hothers hleads
  | conflict first second =>
    obtain ⟨hpair, hclash⟩ := Selection.getters_clash h
    exact .conflict hpair hclash rfl rfl

theorem decidesGetters_of_accessors (htop : s.schema.Topped) {found : List Candidate}
    {t : PropertyTable} (ht : t.Consistent Accessor.Reads)
    (h : ∀ n g, ofList? (rivals (isGetter s.options.strictPredicates) found n) = some g →
      t.accessors.get? n = some (s.getterOf n g)) : s.DecidesGetters found t := by
  intro n hne
  obtain ⟨g, hg⟩ := exists_ofList? hne
  have ha := h n g hg
  refine ⟨_, ha, (ht.listed ha).2, ?_⟩
  rw [ofList?_eq_some_iff.1 hg]
  exact getterOf_verdict htop n g

/-- In whatever order methods are found, the getter of each property is the most specific one, or two of
its getters conflict. So it is for the methods that a type shows, and its fields change nothing. -/
theorem getters_most_specific (s : Source) (htop : s.schema.Topped) :
    (∀ found, ∃ t, s.getters found = .ok t ∧ s.DecidesGetters found t) ∧
      ∃ m, build s.schema s.subject s.options = .ok m ∧
        s.DecidesGetters (s.schema.shownMethods s.subject) m.readable := by
  refine ⟨fun found => ?_, ?_⟩
  · obtain ⟨t, ht, hconsistent⟩ := s.getters_consistent found
    refine ⟨t, ht, decidesGetters_of_accessors htop hconsistent fun n g hg => ?_⟩
    rw [accessors_getters ht, hg, Option.map_some]
  · obtain ⟨m, hm, hreads, _⟩ := s.exists_build
    obtain ⟨_, _, hbuilt⟩ := s.built hm
    exact ⟨m, hm, decidesGetters_of_accessors htop hreads fun n g hg => hbuilt.readable_of_rivals hg⟩

end Source

/-- A class with overloaded getters: for an item, which is anything, of a class, or of the variable of that
class; for whether it is open; and for a code, which is of the variable or a number. -/
def stocking : List Schema.Operation := [
  .reopen Schema.derivedClass {} "Derived",
  .reopen Schema.baseClass {} "Base",
  .declare Schema.derivedClass (.superclass { base := some Schema.baseClass }),
  .declare Schema.baseClass (.typeParameter { name := "T", bound := .plain (.of Schema.derivedClass) }),
  .declare Schema.baseClass (.method { name := "getItem", declaredReturns := some (.var "T"), body := .nothing }),
  .declare Schema.baseClass (.method { name := "getCode", declaredReturns := some (.var "T"), body := .nothing }),
  .declare Schema.baseClass (.method { name := "getCode", result := some .int, body := .nothing }),
  .reopen Schema.storeClass {} "Store",
  .declare Schema.storeClass (.superclass
    { base := some Schema.baseClass, args := [.plain (.of (.builtIn .string))] }),
  .declare Schema.storeClass (.method { name := "getItem", result := some .object, body := .nothing }),
  .declare Schema.storeClass (.method
    { name := "getItem", declaredReturns := some (.plain (.of Schema.baseClass)), body := .nothing }),
  .declare Schema.storeClass (.method { name := "isOpen", result := some .bool, body := .nothing }),
  .declare Schema.storeClass (.method { name := "getOpen", result := some .bool, body := .nothing })]

def stocked : Source where
  schema := .run stocking
  subject := Schema.storeClass
  options := {}

/-- The variable is weighed as the class that bounds it, and the subject sees a text in its place. -/
theorem getters_most_specific_stocked : stocked.schema.Topped ∧
    ∃ m, build stocked.schema stocked.subject stocked.options = .ok m ∧
      stocked.DecidesGetters (stocked.schema.shownMethods stocked.subject) m.readable ∧
      (["item", "open", "code"].map fun n => (rivals (isGetter stocked.options.strictPredicates)
        (stocked.schema.shownMethods stocked.subject) n).length) = [3, 2, 2] ∧
      (m.readable.accessors.get? "item").map Accessor.type = some (.of (.builtIn .string)) ∧
      (m.readable.accessors.get? "open").map Accessor.member = some "isOpen" ∧
      (m.readable.accessors.get? "code").map Accessor.isAmbiguous = some true ∧
      m.readable.types.get? "code" = some (.of (.builtIn .string)) := by
  have htop : stocked.schema.Topped := Schema.topped_run (by decide) (by decide)
  obtain ⟨m, hm, hdecides⟩ := (Source.getters_most_specific stocked htop).2
  obtain ⟨m', hm', hitem, hopen, hcode, htype⟩ : ∃ m',
      build stocked.schema stocked.subject stocked.options = .ok m' ∧
      (m'.readable.accessors.get? "item").map Accessor.type = some (.of (.builtIn .string)) ∧
      (m'.readable.accessors.get? "open").map Accessor.member = some "isOpen" ∧
      (m'.readable.accessors.get? "code").map Accessor.isAmbiguous = some true ∧
      m'.readable.types.get? "code" = some (.of (.builtIn .string)) :=
    ⟨_, rfl, by decide, by decide, by decide, by decide⟩
  obtain rfl := Except.ok.inj (hm'.symm.trans hm)
  exact ⟨htop, m', hm, hdecides, by decide, hitem, hopen, hcode, htype⟩

end Model
end Introspect
