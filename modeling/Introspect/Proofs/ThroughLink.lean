import Introspect.Proofs.Recording
import Introspect.Proofs.Visits

/-! Candidates that are found through a link are filed and chosen as they are without it, and what is
recorded for them corresponds. -/
namespace Introspect

namespace Table

variable {α β γ : Type}

def map (f : β → γ) (t : Table α β) : Table α γ := ⟨t.entries.map fun e => (e.1, f e.2)⟩

variable [DecidableEq α] (f : β → γ) (t : Table α β)

theorem get?_map (k : α) : (t.map f).get? k = (t.get? k).map f := by
  simp only [get?, map]
  induction t.entries with
  | nil => rfl
  | cons e rest ih =>
    by_cases h : e.1 = k
    · simp [findEntry, h]
    · simpa [findEntry, h] using ih

theorem insert_map (k : α) (v : β) : (t.map f).insert k (f v) = (t.insert k v).map f := by
  simp only [insert, map, mk.injEq]
  induction t.entries with
  | nil => rfl
  | cons e rest ih =>
    by_cases h : e.1 = k
    · simp [putEntry, h]
    · simpa [putEntry, h] using ih

end Table

namespace PropertyTable

def map (f : Accessor → Accessor) (t : PropertyTable) : PropertyTable :=
  { t with accessors := t.accessors.map f }

variable (f : Accessor → Accessor) (t : PropertyTable)

theorem record_map (name : String) (a : Accessor) (type : RuntimeType) :
    (t.map f).record name (f a) type = (t.record name a type).map f := by
  unfold record map
  congr 1
  exact t.accessors.insert_map f name a

theorem contains_map (name : String) : (t.map f).contains name = t.contains name := by
  simp only [contains, Table.contains, map, Table.get?_map, Option.isSome_map]

/-- Tables recorded from groups that correspond. -/
theorem recordAll_map {g : CandidateGroup → CandidateGroup}
    {accessor accessor' : String → CandidateGroup → Accessor}
    (htype : ∀ a, (f a).type = a.type) {groups : Table String CandidateGroup}
    (h : ∀ e ∈ groups.entries, accessor e.1 (g e.2) = f (accessor' e.1 e.2)) :
    recordAll accessor (groups.map g) = (recordAll accessor' groups).map f := by
  have hfold (entries : List (String × CandidateGroup)) (t : PropertyTable)
      (h : ∀ e ∈ entries, accessor e.1 (g e.2) = f (accessor' e.1 e.2)) :
      (entries.map fun e => (e.1, g e.2)).foldl
          (fun t e => t.record e.1 (accessor e.1 e.2) (accessor e.1 e.2).type) (t.map f) =
        (entries.foldl (fun t e => t.record e.1 (accessor' e.1 e.2) (accessor' e.1 e.2).type) t).map
          f := by
    induction entries generalizing t with
    | nil => rfl
    | cons e rest ih =>
      simp only [List.map_cons, List.foldl_cons]
      rw [h e List.mem_cons_self, htype, record_map]
      exact ih _ fun e he => h e (List.mem_cons_of_mem _ he)
  exact hfold groups.entries ∅ h

end PropertyTable

namespace CandidateGroup

def through (l : Link) (g : CandidateGroup) : CandidateGroup where
  first := g.first.through l
  rest := g.rest.map (.through l)

variable (l : Link)

theorem file_through (t : Table String CandidateGroup) (c : Candidate) :
    file (t.map (through l)) (c.through l) = (file t c).map (.map (through l)) := by
  have hadd (g? : Option CandidateGroup) :
      ((g?.map (through l)).map fun g : CandidateGroup => g.add (c.through l)).getD
          { first := c.through l } =
        through l ((g?.map fun g : CandidateGroup => g.add c).getD { first := c }) := by
    cases g? with
    | none => rfl
    | some g => simp [through, add]
  unfold file
  rw [Found.member_through]
  cases Naming.propertyOf? c.member.name with
  | none => rfl
  | some property =>
    dsimp only
    split_ifs
    · rw [Table.get?_map, hadd, Table.insert_map]
      rfl
    · rfl

theorem byProperty_through (candidates : List Candidate) :
    byProperty (candidates.map (.through l)) = (byProperty candidates).map (.map (through l)) := by
  have hfold (candidates : List Candidate) (t : Table String CandidateGroup) :
      (candidates.map (.through l)).foldlM file (t.map (through l)) =
        (candidates.foldlM file t).map (.map (through l)) := by
    induction candidates generalizing t with
    | nil => rfl
    | cons c rest ih =>
      rw [List.map_cons, List.foldlM_cons, List.foldlM_cons, file_through]
      cases file t c with
      | error failure => rfl
      | ok t => exact ih t
  exact hfold candidates ∅

end CandidateGroup

namespace Candidate

variable (l : Link) (c : Candidate)

@[simp] theorem returns_through : Candidate.returns (c.through l) = c.returns := rfl

@[simp] theorem parameter_through : Candidate.parameter (c.through l) = c.parameter := rfl

end Candidate

namespace Selection

def through (l : Link) : Selection → Selection
  | chosen winner => chosen (winner.through l)
  | conflict first second => conflict (first.through l) (second.through l)

variable (s : Schema) (l : Link)

theorem getter_through (best : Candidate) (rest : List Candidate) :
    getter s (best.through l) (rest.map (.through l)) = (getter s best rest).through l := by
  induction rest generalizing best with
  | nil => rfl
  | cons c rest ih =>
    simp only [List.map_cons, getter, Candidate.returns_through, Found.member_through, ih]
    split_ifs <;> rfl

theorem weigh_through (selection : Selection) (c : Candidate) :
    (selection.through l).weigh s (c.through l) = (selection.weigh s c).through l := by
  cases selection with
  | conflict first second => rfl
  | chosen best =>
    change (if s.accepts best.parameter c.parameter then chosen (c.through l)
      else if s.accepts c.parameter best.parameter then chosen (best.through l)
      else conflict (best.through l) (c.through l)) = _
    simp only [weigh]
    split_ifs <;> rfl

theorem setterAfter_through (given : Option RuntimeType) (selection : Selection)
    (rest : List Candidate) :
    setterAfter s given (selection.through l) (rest.map (.through l)) =
      (setterAfter s given selection rest).through l := by
  induction rest generalizing selection with
  | nil => rfl
  | cons c rest ih =>
    simp only [List.map_cons, setterAfter, Candidate.parameter_through, weigh_through, ih]
    split_ifs <;> rfl

theorem setter_through (given : Option RuntimeType) (g : CandidateGroup) :
    setter s given (g.through l) = (setter s given g).through l := by
  unfold setter
  rw [CandidateGroup.through, Candidate.parameter_through]
  split_ifs
  · rfl
  · exact setterAfter_through s l given (.chosen g.first) g.rest

end Selection

end Introspect
