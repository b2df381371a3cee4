import Introspect.Schema.Hierarchy

/-! Supertypes looked for one after the other. No type is looked at twice, so that the search comes to an end
also where links run in circles. -/
namespace Introspect.Schema

variable {visited pending : List TypeId}

/-- The listed types that have not been looked at. -/
def unvisited (s : Schema) (visited : List TypeId) : List TypeId :=
  s.types.keys.filter (· ∉ visited)

theorem unvisited_cons (s : Schema) (id : TypeId) (visited : List TypeId) :
    s.unvisited (id :: visited) = (s.unvisited visited).filter (· ≠ id) := by
  unfold unvisited
  rw [List.filter_filter]
  refine List.filter_congr fun other _ => ?_
  simp [List.mem_cons]

/-- Looking at a type leaves one type fewer to be looked at, or none that was pending on its account. -/
theorem visit_lt {s : Schema} {id : TypeId} (hnew : id ∉ visited) :
    Prod.Lex (· < ·) (· < ·)
      ((s.unvisited (id :: visited)).length, ((s.supertypes id).reverse ++ pending).length)
      ((s.unvisited visited).length, (id :: pending).length) := by
  rw [unvisited_cons]
  by_cases hid : id ∈ s.types.keys
  · have hmem : id ∈ s.unvisited visited := List.mem_filter.2 ⟨hid, by simpa using hnew⟩
    exact .left _ _ (List.length_filter_lt_length_iff_exists.2 ⟨id, hmem, by simp⟩)
  · have hsame : (s.unvisited visited).filter (· ≠ id) = s.unvisited visited := by
      refine List.filter_eq_self.2 fun other hother => ?_
      have : other ≠ id := by
        rintro rfl
        exact hid (List.mem_filter.1 hother).1
      simpa using this
    rw [hsame, supertypes_eq_nil_of_notMem_keys hid]
    exact .right _ (Nat.lt_succ_self _)

/-- Looks for a type among those pending, the last one found first. -/
def finds (s : Schema) (target : TypeId) (visited : List TypeId) : List TypeId → Bool
  | [] => false
  | id :: pending =>
    if id ∈ visited then s.finds target visited pending
    else if id = target then true
    else s.finds target (id :: visited) ((s.supertypes id).reverse ++ pending)
-- Links that run in circles only lead to types already visited, which leave the list of those pending.
termination_by pending => ((s.unvisited visited).length, pending.length)
decreasing_by
  · exact .right _ (Nat.lt_succ_self _)
  · exact visit_lt ‹_›

end Introspect.Schema
