import Mathlib.Tactic.SplitIfs
import Introspect.Model.Basic
import Introspect.Proofs.Grouping

/-! What the candidates of one property come to. Whatever a search records on its way, its last record
is the only one that stays. -/
namespace Introspect

namespace Selection

/-- The candidates that a selection names. -/
def members : Selection → List Candidate
  | chosen winner => [winner]
  | conflict first second => [first, second]

theorem best_mem_members (selection : Selection) : selection.best ∈ selection.members := by
  cases selection <;> simp [best, members]

theorem getter_members (s : Schema) (best : Candidate) (rest : List Candidate) :
    ∀ c ∈ (getter s best rest).members, c = best ∨ c ∈ rest := by
  induction rest generalizing best with
  | nil => simp [getter, members]
  | cons c rest ih =>
    have hbest := ih best
    have hc := ih c
    unfold getter
    split_ifs <;> grind [members]

theorem weigh_members (s : Schema) (selection : Selection) (c : Candidate) :
    ∀ d ∈ (selection.weigh s c).members, d = c ∨ d ∈ selection.members := by
  unfold weigh
  split
  · exact fun d hd => Or.inr hd
  · split_ifs <;> simp [members]

/-- The first setter that takes just what the getter gives is chosen, whatever came before it. -/
def setterAfter (s : Schema) (given : Option RuntimeType) (selection : Selection) :
    List Candidate → Selection
  | [] => selection
  | c :: rest =>
    if given = some c.parameter then .chosen c
    else setterAfter s given (selection.weigh s c) rest

def setter (s : Schema) (given : Option RuntimeType) (g : CandidateGroup) : Selection :=
  if given = some g.first.parameter then .chosen g.first
  else setterAfter s given (.chosen g.first) g.rest

theorem setterAfter_members (s : Schema) (given : Option RuntimeType) (selection : Selection)
    (rest : List Candidate) :
    ∀ c ∈ (setterAfter s given selection rest).members, c ∈ selection.members ∨ c ∈ rest := by
  induction rest generalizing selection with
  | nil => simp [setterAfter]
  | cons c rest ih =>
    unfold setterAfter
    split_ifs
    · simp [members]
    · intro d hd
      rcases ih _ d hd with hw | hr
      · rcases weigh_members s selection c d hw with rfl | hs
        · simp
        · exact Or.inl hs
      · simp [hr]

theorem setter_members (s : Schema) (given : Option RuntimeType) (g : CandidateGroup) :
    ∀ c ∈ (setter s given g).members, c ∈ g.toList := by
  intro c hc
  unfold setter at hc
  split_ifs at hc
  · simp_all [members, CandidateGroup.toList]
  · simpa [members, CandidateGroup.toList] using setterAfter_members _ _ _ _ c hc

end Selection

namespace PropertyTable

@[simp] theorem record_record (t : PropertyTable) (name : String) (a b : Accessor)
    (ta tb : RuntimeType) : (t.record name a ta).record name b tb = t.record name b tb := by
  simp [record, Table.contains_insert]

end PropertyTable

namespace Model.Source

variable (s : Source) (property : String) (given : Option RuntimeType) (t : PropertyTable)

@[simp] theorem recordSetter_recordSetter (a b : Selection) :
    s.recordSetter (s.recordSetter t property a) property b = s.recordSetter t property b := by
  simp [recordSetter]

/-- A conflict is already on record while the search goes on from it. -/
private theorem recordSetters_conflict (first second : Candidate) (rest : List Candidate) :
    s.recordSetters property given (s.recordSetter t property (.conflict first second))
        (.conflict first second) rest =
      s.recordSetter t property
        (Selection.setterAfter s.schema given (.conflict first second) rest) := by
  induction rest with
  | nil => rfl
  | cons c rest ih =>
    unfold recordSetters Selection.setterAfter
    split_ifs
    · rw [recordSetter_recordSetter]
    · exact ih

private theorem recordSetters_chosen (best : Candidate) (rest : List Candidate) :
    s.recordSetters property given t (.chosen best) rest =
      s.recordSetter t property (Selection.setterAfter s.schema given (.chosen best) rest) := by
  induction rest generalizing best with
  | nil => rfl
  | cons c rest ih =>
    unfold recordSetters Selection.setterAfter
    split_ifs
    · rfl
    · cases hw : Selection.weigh s.schema (.chosen best) c with
      | chosen winner => exact ih winner
      | conflict first second => exact recordSetters_conflict s property given t first second rest

/-- Of all that is recorded for the setters of a property, the choice among them is left. -/
theorem recordGroup_eq (getters : PropertyTable) (g : CandidateGroup) :
    s.recordGroup getters t property g =
      s.recordSetter t property (Selection.setter s.schema (given? getters property) g) := by
  unfold recordGroup Selection.setter
  dsimp only
  split_ifs
  · rfl
  · exact recordSetters_chosen s property _ t g.first g.rest

end Model.Source
end Introspect
