import Introspect.Proofs.Consistency
import Introspect.Proofs.Runs

/-! Names in any letter case. Of the properties of a model that differ in letter case alone one stands for all
of them, and it is found under the names of the others too. -/
namespace Introspect

namespace Naming

/-- The last name of a list among those that differ from it in letter case alone. -/
def LastSpelling (names : List String) (n : String) : Prop :=
  ∃ earlier later, names = earlier ++ n :: later ∧ ∀ p ∈ later, fold p ≠ fold n

theorem LastSpelling.mem {names : List String} {n : String} (h : LastSpelling names n) : n ∈ names := by
  obtain ⟨earlier, later, rfl, _⟩ := h
  exact List.mem_append_right _ List.mem_cons_self

theorem find?_reverse_eq_some_iff {names : List String} {q n : String} :
    names.reverse.find? (fold · = fold q) = some n ↔ fold n = fold q ∧ LastSpelling names n := by
  rw [List.find?_eq_some_iff_append, decide_eq_true_eq]
  refine and_congr_right fun hn => ?_
  constructor
  · rintro ⟨later, earlier, hnames, hlater⟩
    refine ⟨earlier.reverse, later.reverse, ?_, fun p hp heq => ?_⟩
    · rw [← List.reverse_reverse names, hnames]
      simp
    · have hne := hlater p (List.mem_reverse.1 hp)
      simp [heq, hn] at hne
  · rintro ⟨earlier, later, rfl, hlater⟩
    refine ⟨later.reverse, earlier.reverse, by simp, fun p hp => ?_⟩
    have hne := hlater p (List.mem_reverse.1 hp)
    simpa [hn] using hne

theorem find?_reverse_eq_none_iff {names : List String} {q : String} :
    names.reverse.find? (fold · = fold q) = none ↔ ∀ p ∈ names, fold p ≠ fold q := by
  simp [List.find?_eq_none]

end Naming

namespace Model

open Naming

/-- Stands for all names that differ from it in letter case alone. It is the last of those that can be
written, or else the last of those that can be read. -/
def Canonical (m : Model) (n : String) : Prop :=
  LastSpelling m.writable.names n ∨
    LastSpelling m.readable.names n ∧ ∀ p ∈ m.writable.names, fold p ≠ fold n

variable {m : Model} {q n : String}

theorem find?_eq_some_iff : m.find? q = some n ↔ fold n = fold q ∧ m.Canonical n := by
  unfold find? Canonical
  rw [List.reverse_append, List.find?_append, Option.or_eq_some_iff, find?_reverse_eq_some_iff,
    find?_reverse_eq_some_iff, find?_reverse_eq_none_iff]
  constructor
  · rintro (⟨hn, hlast⟩ | ⟨hnone, hn, hlast⟩)
    · exact ⟨hn, Or.inl hlast⟩
    · exact ⟨hn, Or.inr ⟨hlast, fun p hp => hn ▸ hnone p hp⟩⟩
  · rintro ⟨hn, hlast | ⟨hlast, hnone⟩⟩
    · exact Or.inl ⟨hn, hlast⟩
    · exact Or.inr ⟨fun p hp => hn ▸ hnone p hp, hn, hlast⟩

theorem exists_find?_of_listed (h : n ∈ m.readable.names ∨ n ∈ m.writable.names) :
    ∃ p, m.find? n = some p := by
  refine Option.isSome_iff_exists.1 (List.find?_isSome.2 ⟨n, ?_, decide_eq_true rfl⟩)
  exact List.mem_reverse.2 (List.mem_append.2 h)

/-- Looked up by its own name, a property is found unless another one, which differs from it in letter case
alone, stands for both. That one is found in its place. -/
theorem find?_own_name (schema : Schema) (subject : TypeId) (options : ModelOptions) :
    ∃ m, build schema subject options = .ok m ∧
      ∀ n, n ∈ m.readable.names ∨ n ∈ m.writable.names →
        (m.find? n = some n ↔ m.Canonical n) ∧
        (∃ p, m.find? n = some p ∧ fold p = fold n ∧ m.Canonical p) ∧
        ((∀ p, p ∈ m.readable.names ∨ p ∈ m.writable.names → fold p = fold n → p = n) →
          m.find? n = some n) := by
  obtain ⟨m, hm, _⟩ := Source.exists_build ⟨schema, subject, options⟩
  refine ⟨m, hm, fun n hn => ?_⟩
  obtain ⟨p, hp⟩ := exists_find?_of_listed hn
  obtain ⟨hfold, hcanonical⟩ := find?_eq_some_iff.1 hp
  refine ⟨?_, ⟨p, hp, hfold, hcanonical⟩, fun hunique => ?_⟩
  · rw [find?_eq_some_iff]
    exact and_iff_right rfl
  · have hlisted : p ∈ m.readable.names ∨ p ∈ m.writable.names :=
      hcanonical.elim (fun h => Or.inr h.mem) fun h => Or.inl h.1.mem
    rw [hp, hunique p hlisted hfold]

/-- An acronym among the accessors, and a field of the same letters. -/
def acronym : List Schema.Operation := [
  .reopen Schema.baseClass {} "Base",
  .declare Schema.baseClass (.method { name := "getURL", result := some .string, body := .load "url" }),
  .declare Schema.baseClass (.method { name := "setURL", params := [.string], body := .store ["url"] }),
  .declare Schema.baseClass (.field { name := "url", type := .string, storage := .slot "url" })]

/-- The field comes after the accessors. -/
theorem find?_own_name_acronym : ∃ m, build (.run acronym) Schema.baseClass {} = .ok m ∧
    m.readable.names = ["URL", "url"] ∧ m.writable.names = ["URL", "url"] ∧ m.Canonical "url" ∧
    m.find? "url" = some "url" := by
  obtain ⟨m, hm, hfind⟩ := find?_own_name (.run acronym) Schema.baseClass {}
  obtain ⟨other, hother, hreadable, hwritable⟩ : ∃ other,
      build (.run acronym) Schema.baseClass {} = .ok other ∧
      other.readable.names = ["URL", "url"] ∧ other.writable.names = ["URL", "url"] :=
    ⟨_, rfl, by decide, by decide⟩
  obtain rfl := Except.ok.inj (hother.symm.trans hm)
  have hcanonical : other.Canonical "url" := Or.inl ⟨["URL"], [], hwritable, nofun⟩
  have hlisted : "url" ∈ other.readable.names ∨ "url" ∈ other.writable.names := by
    rw [hreadable]
    exact Or.inl (by decide)
  exact ⟨other, hother, hreadable, hwritable, hcanonical, (hfind "url" hlisted).1.2 hcanonical⟩

/-- The field is found even under the name of the accessors, though they have this very name. -/
theorem acronym_finds_field : ∃ m, build (.run acronym) Schema.baseClass {} = .ok m ∧
    "URL" ∈ m.readable.names ∧ "URL" ∈ m.writable.names ∧ m.find? "URL" = some "url" :=
  ⟨_, rfl, by decide, by decide, by decide⟩

end Model
end Introspect
