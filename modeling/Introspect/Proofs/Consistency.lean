import Introspect.Proofs.Execution
import Introspect.Proofs.Recording

/-! A finished model is consistent: on each side the names, the accessors and the types are in step,
every accessor has the form of its side, and no name is one that is kept for internal use. -/
namespace Introspect

namespace Accessor

/-- The forms that a getter can have. -/
def Reads : Accessor → Prop
  | method m => m.arity = 0
  | field f => ∃ reader, f.use = .read reader
  | ambiguous _ _ => True

/-- The forms that a setter can have. A field that is set has a writer. -/
def Writes : Accessor → Prop
  | method m => m.arity = 1
  | field f => ∃ writer, f.use = .write (some writer)
  | ambiguous _ _ => True

end Accessor

namespace PropertyTable

structure Consistent (Fits : Accessor → Prop) (t : PropertyTable) : Prop where
  names_nodup : t.names.Nodup
  keys_accessors : t.accessors.keys = t.names
  keys_types : t.types.keys = t.names
  types_get? : ∀ n, t.types.get? n = (t.accessors.get? n).map Accessor.type
  fits : ∀ n a, t.accessors.get? n = some a → Fits a
  names_public : ∀ n ∈ t.names,
    n.toList.head? ≠ some '$' ∧ n ≠ "serialVersionUID" ∧ n ≠ "class"

variable {Fits : Accessor → Prop} {t : PropertyTable}

theorem consistent_empty : (∅ : PropertyTable).Consistent Fits where
  names_nodup := List.nodup_nil
  keys_accessors := rfl
  keys_types := rfl
  types_get? _ := rfl
  fits _ _ h := nomatch h
  names_public _ h := nomatch h

theorem record_consistent (h : t.Consistent Fits) {name : String} {a : Accessor} (ha : Fits a)
    (hn : Naming.isPropertyName name) : (t.record name a a.type).Consistent Fits := by
  have hnames : (t.record name a a.type).names =
      if name ∈ t.names then t.names else t.names ++ [name] := by
    simp only [record, ← Table.mem_keys_iff, h.keys_types]
  have hmem : ∀ n ∈ (t.record name a a.type).names, n = name ∨ n ∈ t.names := by
    rw [hnames]
    split_ifs <;> simp +contextual [or_comm]
  constructor
  · rw [hnames]
    split_ifs with hm
    · exact h.names_nodup
    · exact List.nodup_append.2 ⟨h.names_nodup, by simp, by grind⟩
  · rw [hnames, record_accessors, Table.keys_insert, h.keys_accessors]
  · rw [hnames, record_types, Table.keys_insert, h.keys_types]
  · intro n
    rw [record_accessors, record_types, Table.get?_insert, Table.get?_insert, h.types_get?]
    split_ifs <;> rfl
  · intro n b hb
    rw [record_accessors, Table.get?_insert] at hb
    split_ifs at hb
    · exact Option.some.inj hb ▸ ha
    · exact h.fits n b hb
  · intro n hm
    rcases hmem n hm with rfl | hm
    · exact (Naming.isPropertyName_iff _).1 hn
    · exact h.names_public n hm

private theorem foldl_record_consistent (accessor : String → CandidateGroup → Accessor)
    (entries : List (String × CandidateGroup)) (h : t.Consistent Fits)
    (he : ∀ e ∈ entries, Fits (accessor e.1 e.2) ∧ Naming.isPropertyName e.1) :
    (entries.foldl (fun t e => t.record e.1 (accessor e.1 e.2) (accessor e.1 e.2).type) t).Consistent
      Fits := by
  induction entries generalizing t with
  | nil => exact h
  | cons e rest ih =>
    obtain ⟨ha, hn⟩ := he e (by simp)
    exact ih (record_consistent h ha hn) fun e he' => he e (by simp [he'])

theorem recordAll_consistent {accessor : String → CandidateGroup → Accessor}
    {candidates : List Candidate} {groups : Table String CandidateGroup}
    (h : CandidateGroup.Groups candidates groups)
    (hf : ∀ property (g : CandidateGroup), (∀ c ∈ g.toList, c ∈ candidates) →
      Fits (accessor property g)) :
    (recordAll accessor groups).Consistent Fits := by
  refine foldl_record_consistent accessor groups.entries consistent_empty ?_
  intro e he
  obtain ⟨property, g⟩ := e
  have hg := h.toList_eq (Table.get?_of_mem_entries h.nodup he)
  have hmem : ∀ c ∈ g.toList, c ∈ candidates ∧ c.denotes property := by
    intro c hc
    rw [hg] at hc
    exact List.mem_filter.1 hc
  have hfirst := (hmem g.first (by simp [CandidateGroup.toList])).2
  simp only [Candidate.denotes, Bool.and_eq_true] at hfirst
  exact ⟨hf property g fun c hc => (hmem c hc).1, hfirst.2⟩

end PropertyTable

namespace Model

theorem get?_of_accessor {m : Model} {schema : Schema} {side : Side} {n : String} {a : Accessor}
    (h : m.accessor schema side n = .ok a) : (m.side side).accessors.get? n = some a := by
  unfold accessor require at h
  split at h
  · simp_all
  · cases h

namespace Source

variable (s : Source)

theorem getters_consistent (found : List Candidate) :
    ∃ t, s.getters found = .ok t ∧ t.Consistent Accessor.Reads := by
  obtain ⟨groups, hgroups, hok⟩ := s.getters_eq found
  refine ⟨_, hok, PropertyTable.recordAll_consistent hgroups ?_⟩
  intro property g hg
  have hbest : ∀ c ∈ (Selection.getter s.schema g.first g.rest).members, c.member.arity = 0 := by
    intro c hc
    have hm := hg c (by simpa [CandidateGroup.toList] using Selection.getter_members _ _ _ c hc)
    simp_all [Candidate.isGetter]
  unfold getterOf
  cases hs : Selection.getter s.schema g.first g.rest with
  | chosen winner => exact hbest winner (by simp [hs, Selection.members])
  | conflict first second => trivial

theorem setters_consistent (found : List Candidate) (getters : PropertyTable) :
    ∃ t, s.setters found getters = .ok t ∧ t.Consistent Accessor.Writes := by
  obtain ⟨groups, hgroups, hok⟩ := s.setters_eq found getters
  refine ⟨_, hok, PropertyTable.recordAll_consistent hgroups ?_⟩
  intro property g hg
  have hbest : ∀ c ∈ (Selection.setter s.schema (given? getters property) g).members,
      c.member.arity = 1 := by
    intro c hc
    have hm := hg c (Selection.setter_members _ _ _ c hc)
    simp_all [Candidate.isSetter]
  unfold setterOf
  cases hs : Selection.setter s.schema (given? getters property) g with
  | chosen winner => exact hbest winner (by simp [hs, Selection.members])
  | conflict first second => trivial

theorem fill_consistent {Fits : Accessor → Prop} {use : Field → Option FieldUse} {t : PropertyTable}
    (h : t.Consistent Fits) (f : Found Field)
    (hf : ∀ u, use f.member = some u → Fits (s.fieldAccessor f u)) :
    (s.fill use t f).Consistent Fits := by
  unfold fill
  cases hu : use f.member with
  | none => exact h
  | some u =>
    dsimp only
    split_ifs
    · exact h
    · unfold recordField
      split_ifs with hn
      · exact PropertyTable.record_consistent h (hf u hu) hn
      · exact h

theorem foldl_fill_consistent {Fits : Accessor → Prop} {use : Field → Option FieldUse}
    {t : PropertyTable} (h : t.Consistent Fits) (fields : List (Found Field))
    (hf : ∀ f u, use f.member = some u → Fits (s.fieldAccessor f u)) :
    (fields.foldl (s.fill use) t).Consistent Fits := by
  induction fields generalizing t with
  | nil => exact h
  | cons f rest ih => exact ih (s.fill_consistent h f (hf f))

theorem reads_of_reading (f : Found Field) (u : FieldUse) (hu : reading f.member = some u) :
    (s.fieldAccessor f u).Reads := by
  cases hu
  exact ⟨_, rfl⟩

theorem writes_of_writing (f : Found Field) (u : FieldUse) (hu : writing f.member = some u) :
    (s.fieldAccessor f u).Writes := by
  unfold writing isSettable at hu
  split_ifs at hu with hw
  cases hu
  simp only [Bool.and_eq_true] at hw
  obtain ⟨writer, hwriter⟩ := Option.isSome_iff_exists.1 hw.1
  exact ⟨writer, by simp [hwriter]⟩

/-- A model is built for any type, with two consistent sides. -/
theorem exists_build : ∃ m, build s.schema s.subject s.options = .ok m ∧
    m.readable.Consistent Accessor.Reads ∧ m.writable.Consistent Accessor.Writes := by
  obtain ⟨readable, hr, hreadable⟩ := s.getters_consistent (s.schema.shownMethods s.subject)
  obtain ⟨writable, hw, hwritable⟩ := s.setters_consistent (s.schema.shownMethods s.subject) readable
  have hreads := s.foldl_fill_consistent hreadable (s.schema.shownFields s.subject) s.reads_of_reading
  have hwrites := s.foldl_fill_consistent hwritable (s.schema.shownFields s.subject)
    s.writes_of_writing
  exact ⟨_, s.build_eq hr hw, hreads, hwrites⟩

end Source

/-- The model of a type is built without failure, for any schema and any type in it, and both of its
sides are consistent. None of its accessors is ever refused for lack of a writer. -/
theorem build_consistent (schema : Schema) (subject : TypeId) (options : ModelOptions) :
    ∃ m, build schema subject options = .ok m ∧
      m.readable.Consistent Accessor.Reads ∧ m.writable.Consistent Accessor.Writes ∧
      ∀ side n a, m.accessor schema side n = .ok a →
        ∀ call self args memory site,
          ((a.invoke call self args).exec memory).1 ≠ .error (.refused site .readOnly) := by
  obtain ⟨m, hm, hreads, hwrites⟩ := Source.exists_build { schema, subject, options }
  refine ⟨m, hm, hreads, hwrites, ?_⟩
  intro side n a ha call self args memory site
  refine Accessor.invoke_ne_readOnly call self args memory a ?_ site
  intro f hf
  subst hf
  cases side with
  | getter =>
    obtain ⟨reader, hu⟩ := hreads.fits n (.field f) (get?_of_accessor ha)
    simp [hu]
  | setter =>
    obtain ⟨writer, hu⟩ := hwrites.fits n (.field f) (get?_of_accessor ha)
    simp [hu]

end Model
end Introspect
