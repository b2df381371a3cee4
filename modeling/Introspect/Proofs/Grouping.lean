import Introspect.Model.Selection

/-! Candidates filed by property: every property that some candidate denotes has all of its candidates,
in the order in which they were found. -/
namespace Introspect

/-- Whether the candidate's name stands for the property. -/
def Candidate.denotes (property : String) (c : Candidate) : Bool :=
  Naming.propertyOf? c.member.name = some property && Naming.isPropertyName property

namespace CandidateGroup

/-- A group is a list that is not empty. -/
def ofList? : List Candidate → Option CandidateGroup
  | [] => none
  | c :: rest => some { first := c, rest }

theorem ofList?_eq_some_iff {candidates : List Candidate} {g : CandidateGroup} :
    ofList? candidates = some g ↔ candidates = g.toList := by
  cases candidates with
  | nil => simp [ofList?, toList]
  | cons c rest =>
    obtain ⟨first, tail⟩ := g
    simp [ofList?, toList]

theorem ofList?_append_singleton (candidates : List Candidate) (c : Candidate) :
    ofList? (candidates ++ [c]) = some (((ofList? candidates).map (·.add c)).getD { first := c }) := by
  cases candidates <;> rfl

/-- The table holds just the groups of the candidates. -/
structure Groups (candidates : List Candidate) (t : Table String CandidateGroup) : Prop where
  nodup : t.keys.Nodup
  get?_eq : ∀ property, t.get? property = ofList? (candidates.filter (·.denotes property))

theorem Groups.toList_eq {candidates : List Candidate} {t : Table String CandidateGroup}
    (h : Groups candidates t) {property : String} {g : CandidateGroup} (hg : t.get? property = some g) :
    g.toList = candidates.filter (·.denotes property) := by
  rw [h.get?_eq, ofList?_eq_some_iff] at hg
  exact hg.symm

theorem file_groups {candidates : List Candidate} {t : Table String CandidateGroup}
    (h : Groups candidates t) {c : Candidate} (hc : (Naming.propertyOf? c.member.name).isSome) :
    ∃ t', file t c = .ok t' ∧ Groups (candidates ++ [c]) t' := by
  obtain ⟨property, hp⟩ := Option.isSome_iff_exists.1 hc
  by_cases hv : Naming.isPropertyName property
  · refine ⟨_, by simp only [file, hp, hv, if_true]; rfl, Table.nodup_keys_insert h.nodup _ _, ?_⟩
    intro n
    rw [Table.get?_insert, List.filter_append]
    by_cases hn : n = property
    · subst hn
      have hd : [c].filter (·.denotes n) = [c] := by simp [Candidate.denotes, hp, hv]
      rw [if_pos rfl, hd, ofList?_append_singleton, h.get?_eq]
    · have hd : [c].filter (·.denotes n) = [] := by
        simp [Candidate.denotes, hp, Ne.symm hn]
      rw [if_neg hn, hd, List.append_nil, h.get?_eq]
  · refine ⟨t, by simp only [file, hp, hv]; rfl, h.nodup, ?_⟩
    intro n
    have hd : [c].filter (·.denotes n) = [] := by
      have hn : property = n → Naming.isPropertyName n = false := by rintro rfl; simpa using hv
      simpa [Candidate.denotes, hp] using hn
    rw [List.filter_append, hd, List.append_nil, h.get?_eq]

private theorem foldlM_file_groups (rest : List Candidate) {candidates : List Candidate}
    {t : Table String CandidateGroup} (h : Groups candidates t)
    (hr : ∀ c ∈ rest, (Naming.propertyOf? c.member.name).isSome) :
    ∃ t', rest.foldlM file t = .ok t' ∧ Groups (candidates ++ rest) t' := by
  induction rest generalizing candidates t with
  | nil => exact ⟨t, rfl, by simpa using h⟩
  | cons c rest ih =>
    obtain ⟨t₁, hf, h₁⟩ := file_groups h (hr c (by simp))
    obtain ⟨t₂, hfs, h₂⟩ := ih h₁ fun c hc => hr c (by simp [hc])
    refine ⟨t₂, ?_, by simpa using h₂⟩
    rw [List.foldlM_cons, hf]
    exact hfs

/-- Filing fails for no list of accessor methods. -/
theorem byProperty_groups {candidates : List Candidate}
    (h : ∀ c ∈ candidates, Naming.isAccessor c.member.name) :
    ∃ t, byProperty candidates = .ok t ∧ Groups candidates t := by
  have hempty : Groups [] ∅ := ⟨by simp, fun _ => rfl⟩
  exact foldlM_file_groups candidates hempty
    fun c hc => Naming.propertyOf?_isSome_of_isAccessor (h c hc)

end CandidateGroup
end Introspect
