import Introspect.Proofs.Assignability

/-! Arrays of references. They hold each other as their components do, except that an array of the root
holds no array of arrays of primitives, while the root holds the arrays of primitives themselves. -/
namespace Introspect.Schema

variable {s : Schema} {t u : RuntimeType}

/-- An array, or a type that is neither primitive nor void. -/
structure IsReference (s : Schema) (t : RuntimeType) : Prop where
  isValid : t.isValid
  kind : t.isArray ∨ ¬ s.isPrimitive t ∧ ¬ s.isVoid t

/-- The innermost elements are primitives. -/
def HasPrimitives (s : Schema) (t : RuntimeType) : Prop :=
  ∃ id ∈ t.element, s.isPrimitive (.of id)

/-- A rank grows by each pair of brackets, unless it wraps. -/
theorem rank_lt_iff {rank depth : UInt32} (hdepth : 0 < depth + 1) :
    rank < depth ↔ 0 < rank + 1 ∧ rank + 1 < depth + 1 := by
  have hrank := rank.toNat_lt
  have hmax := depth.toNat_lt
  simp only [UInt32.lt_iff_toNat_lt, UInt32.toNat_add, UInt32.toNat_zero, UInt32.toNat_one] at *
  omega

/-- Arrays are compared by their ranks and their elements. -/
theorem accepts_arrays_iff {a b : TypeId} {rank depth : UInt32} (hrank : 0 < rank) :
    s.accepts ⟨some a, rank⟩ ⟨some b, depth⟩ ↔ (a = b ∧ rank = depth) ∨
      ¬ s.isPrimitive (.of a) ∧ ¬ s.isPrimitive (.of b) ∧
        (rank = depth ∧ s.accepts (.of a) (.of b) ∨ rank < depth ∧ a = .object) := by
  rw [accepts_iff, accepts_iff]
  constructor
  · intro h
    cases h with
    | same => exact Or.inl ⟨rfl, rfl⟩
    | root => exact absurd hrank (UInt32.lt_irrefl 0)
    | reached hobject ha hb hreach => exact Or.inr ⟨ha, hb, Or.inl ⟨rfl, .reached hobject ha hb hreach⟩⟩
    | rootArray _ ha hb hvoid => exact Or.inr ⟨ha, hb, Or.inl ⟨rfl, .root hvoid⟩⟩
    | deeper _ hdepth ha hb => exact Or.inr ⟨ha, hb, Or.inr ⟨hdepth, rfl⟩⟩
  · rintro (⟨rfl, rfl⟩ | ⟨ha, hb, ⟨rfl, helement⟩ | ⟨hdepth, rfl⟩⟩)
    · exact .same a rank
    · exact helement.of_elements hrank ha hb
    · exact .deeper hrank hdepth ha hb

/-- Of the types that are no arrays only the root holds arrays. -/
theorem accepts_array_iff {a b : TypeId} {depth : UInt32} (hdepth : 0 < depth) :
    s.accepts (.of a) ⟨some b, depth⟩ ↔ a = .object := by
  rw [accepts_iff]
  constructor
  · intro h
    cases h with
    | same | reached => exact absurd hdepth (UInt32.lt_irrefl 0)
    | root | rootArray | deeper => rfl
  · rintro rfl
    refine .root fun hvoid => ?_
    exact absurd (isVoid_mk.1 hvoid).1 (UInt32.pos_iff_ne_zero.1 hdepth)

/-- The root holds every reference. -/
theorem IsReference.accepts_root (h : s.IsReference u) : s.accepts .object u := by
  obtain ⟨hvalid, hkind⟩ := h
  obtain ⟨id, hid⟩ := Option.isSome_iff_exists.1 hvalid
  obtain ⟨element, rank⟩ := u
  cases hid
  refine (Assignable.root fun hvoid => ?_).accepts
  rcases hkind with harray | hkind
  · exact absurd (isVoid_mk.1 hvoid).1 (UInt32.pos_iff_ne_zero.1 (isArray_mk.1 harray))
  · exact hkind.2 hvoid

theorem IsReference.not_isPrimitive {id : TypeId} (h : s.IsReference (.of id)) :
    ¬ s.isPrimitive (.of id) := by
  rcases h.kind with harray | hkind
  · exact absurd (isArray_mk.1 harray) (UInt32.lt_irrefl 0)
  · exact hkind.1

/-- One more pair of brackets around two arrays changes nothing. -/
theorem accepts_array_of_arrays {a b : TypeId} {rank depth : UInt32} (hnested : 0 < rank)
    (hrank : 0 < rank + 1) (hdepth : 0 < depth + 1) :
    s.accepts (RuntimeType.array ⟨some a, rank⟩) (RuntimeType.array ⟨some b, depth⟩) ↔
      s.accepts ⟨some a, rank⟩ ⟨some b, depth⟩ := by
  have hsame : rank + 1 = depth + 1 ↔ rank = depth := UInt32.add_left_inj 1
  have hdeeper : rank + 1 < depth + 1 ↔ rank < depth := by rw [rank_lt_iff hdepth, and_iff_right hrank]
  rw [RuntimeType.array, RuntimeType.array, accepts_arrays_iff hrank, accepts_arrays_iff hnested, hsame,
    hdeeper]

/-- An array holds what its component holds, except that the root stands for no primitives in it. -/
theorem accepts_array_of_element {a b : TypeId} {depth : UInt32} (ha : ¬ s.isPrimitive (.of a))
    (hb : depth = 0 → ¬ s.isPrimitive (.of b)) (hdepth : 0 < depth + 1) :
    s.accepts (RuntimeType.of a).array (RuntimeType.array ⟨some b, depth⟩) ↔
      s.accepts (.of a) ⟨some b, depth⟩ ∧ (a = .object → ¬ s.isPrimitive (.of b)) := by
  have hone : (0 : UInt32) < 0 + 1 := by decide
  rw [RuntimeType.array, RuntimeType.array, RuntimeType.of, accepts_arrays_iff hone]
  -- An array inside makes the ranks differ, and then only an array of the root will do.
  by_cases hinner : 0 < depth
  · have hne : (0 : UInt32) + 1 ≠ depth + 1 := fun h =>
      UInt32.pos_iff_ne_zero.1 hinner ((UInt32.add_left_inj 1).1 h).symm
    have hlt := ((rank_lt_iff hdepth).1 hinner).2
    have hroot : s.accepts ⟨some a, 0⟩ ⟨some b, depth⟩ ↔ a = .object := accepts_array_iff hinner
    rw [hroot]
    constructor
    · rintro (⟨_, hrank⟩ | ⟨_, hb', ⟨hrank, _⟩ | ⟨_, hroot⟩⟩)
      · exact absurd hrank hne
      · exact absurd hrank hne
      · exact ⟨hroot, fun _ => hb'⟩
    · rintro ⟨hroot, hb'⟩
      exact Or.inr ⟨ha, hb' hroot, Or.inr ⟨hlt, hroot⟩⟩
  · obtain rfl : depth = 0 := by simpa [UInt32.pos_iff_ne_zero] using hinner
    constructor
    · rintro (⟨rfl, _⟩ | ⟨_, _, ⟨_, h⟩ | ⟨hlt, _⟩⟩)
      · exact ⟨(Assignable.same a 0).accepts, fun _ => ha⟩
      · exact ⟨h, fun _ => hb rfl⟩
      · exact absurd hlt (UInt32.lt_irrefl _)
    · intro h
      exact Or.inr ⟨ha, hb rfl, Or.inl ⟨rfl, h.1⟩⟩

/-- Where one more pair of brackets can be counted, arrays of references hold each other just as their
components do, save that an array of the root does not hold arrays of primitives, which the root does. -/
theorem accepts_array_of_references (ht : s.IsReference t) (hu : s.IsReference u)
    (htarray : t.array.isArray) (huarray : u.array.isArray) :
    (s.accepts t.array u.array ↔ s.accepts t u ∧ (t.isObject → ¬ s.HasPrimitives u)) ∧
      (t.isObject → s.accepts t u) := by
  refine ⟨?_, fun hroot => of_decide_eq_true hroot ▸ hu.accepts_root⟩
  obtain ⟨a, ha⟩ := Option.isSome_iff_exists.1 ht.isValid
  obtain ⟨b, hb⟩ := Option.isSome_iff_exists.1 hu.isValid
  obtain ⟨_, rank⟩ := t
  obtain ⟨_, depth⟩ := u
  cases ha
  cases hb
  have hrank := isArray_mk.1 htarray
  have hdepth := isArray_mk.1 huarray
  have hprimitives : s.HasPrimitives ⟨some b, depth⟩ ↔ s.isPrimitive (.of b) := by
    simp [HasPrimitives]
  rw [isObject_mk, hprimitives]
  by_cases hnested : 0 < rank
  · have hnonzero := UInt32.pos_iff_ne_zero.1 hnested
    rw [accepts_array_of_arrays hnested hrank hdepth]
    simp [hnonzero]
  · obtain rfl : rank = 0 := by simpa [UInt32.pos_iff_ne_zero] using hnested
    have hinner (hzero : depth = 0) : ¬ s.isPrimitive (.of b) := by
      subst hzero
      exact IsReference.not_isPrimitive hu
    rw [and_iff_left rfl]
    exact accepts_array_of_element (IsReference.not_isPrimitive ht) hinner hdepth

theorem accepts_array_of_references_shadowed :
    shadowed.accepts (RuntimeType.of baseClass).array (RuntimeType.of derivedClass).array ∧
      ¬ shadowed.accepts (RuntimeType.of derivedClass).array (RuntimeType.of baseClass).array ∧
      ¬ shadowed.accepts RuntimeType.object.array (RuntimeType.of (.builtIn .int)).array.array := by
  have hbase : shadowed.IsReference (.of baseClass) := ⟨rfl, Or.inr (by decide)⟩
  have hderived : shadowed.IsReference (.of derivedClass) := ⟨rfl, Or.inr (by decide)⟩
  have hroot : shadowed.IsReference .object := ⟨rfl, Or.inr (by decide)⟩
  have hints : shadowed.IsReference (RuntimeType.of (.builtIn .int)).array := ⟨rfl, Or.inl rfl⟩
  refine ⟨?_, ?_, ?_⟩
  · rw [(accepts_array_of_references hbase hderived rfl rfl).1]
    exact ⟨by decide, fun hobject => absurd hobject (by decide)⟩
  · rw [(accepts_array_of_references hderived hbase rfl rfl).1]
    exact fun h => absurd h.1 (by decide)
  · rw [(accepts_array_of_references hroot hints rfl rfl).1]
    exact fun h => h.2 rfl ⟨.builtIn .int, rfl, by decide⟩

/-- The root holds an array of integers, and an array of the root no array of such arrays. Of arrays with
as many brackets as there can be, one more pair leaves the elements. -/
theorem array_of_root_refuses_primitives :
    let ints := (RuntimeType.of (.builtIn .int)).array
    let deepest (id : TypeId) : RuntimeType := { element := some id, rank := 4294967295 }
    builtIn.IsReference .object ∧ builtIn.IsReference ints ∧
      builtIn.accepts .object ints ∧ ¬ builtIn.accepts RuntimeType.object.array ints.array ∧
      builtIn.IsReference (deepest .object) ∧ builtIn.IsReference (deepest (.builtIn .int)) ∧
      builtIn.accepts (deepest .object).array (deepest (.builtIn .int)).array ∧
      ¬ builtIn.accepts (deepest .object) (deepest (.builtIn .int)) := by
  exact ⟨⟨rfl, Or.inr (by decide)⟩, ⟨rfl, Or.inl rfl⟩, by decide, by decide, ⟨rfl, Or.inl rfl⟩,
    ⟨rfl, Or.inl rfl⟩, by decide, by decide⟩

end Introspect.Schema
