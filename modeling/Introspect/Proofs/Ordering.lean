import Introspect.Proofs.Agreement
import Introspect.Proofs.Scripts

/-! Scripts in any order. What they make of the built-in types is the same, but for the index by name: there
a type that is mentioned before it is opened holds its default name, which no other can be opened under. -/
namespace Introspect

namespace Script

/-- Scripts of different classes under different names, none of which is that of a built-in type. -/
structure Distinct (scripts : List Script) : Prop where
  ids : (scripts.map id).Nodup
  names : (scripts.map name).Nodup
  free : ∀ p ∈ scripts, ∀ type : BuiltIn, p.name ≠ type.name

/-- No type that a script refers to, other than its own, has by default the name that another script opens
yet another type under. -/
def DefaultsApart (scripts : List Script) : Prop :=
  ∀ p ∈ scripts, ∀ id ∈ p.listed, id ≠ p.id →
    ∀ q ∈ scripts, q.id ≠ p.id → q.id ≠ id → id.defaultName ≠ q.name

variable {ps qs : List Script}

theorem Distinct.of_before {done rest : List Script} {p : Script} (h : Distinct (done ++ p :: rest)) :
    ∀ q ∈ done, q.id ≠ p.id ∧ q.name ≠ p.name := by
  have hids := h.ids
  have hnames := h.names
  rw [List.map_append, List.nodup_append] at hids hnames
  intro q hq
  exact ⟨hids.2.2 _ (List.mem_map_of_mem hq) _ List.mem_cons_self,
    hnames.2.2 _ (List.mem_map_of_mem hq) _ List.mem_cons_self⟩

theorem Distinct.perm (h : Distinct ps) (hperm : ps.Perm qs) : Distinct qs where
  ids := (hperm.map id).nodup h.ids
  names := (hperm.map name).nodup h.names
  free p hp := h.free p (hperm.mem_iff.2 hp)

theorem DefaultsApart.perm (h : DefaultsApart ps) (hperm : ps.Perm qs) : DefaultsApart qs := by
  intro p hp id hid hne q hq
  exact h p (hperm.mem_iff.2 hp) id hid hne q (hperm.mem_iff.2 hq)

end Script

namespace Schema

theorem nameOf_builtIn (id : TypeId) : builtIn.nameOf id = id.defaultName := by
  cases id with
  | builtIn type => cases type <;> rfl
  | enumeration | record | described => rfl

theorem eq_builtIn_of_contains {id : TypeId} (h : builtIn.contains id) :
    ∃ type, id = .builtIn type := by
  cases id with
  | builtIn type => exact ⟨type, rfl⟩
  | enumeration | record | described => cases h

/-- Schemas with the same outlines agree in all but what types are taken for. -/
theorem congruent_of_outline {s t : Schema} (hsize : s.size = t.size)
    (h : ∀ id, (s.describe id).outline = (t.describe id).outline) : s.Congruent t where
  name id := (congrArg Description.name (h id) :)
  primitive id := by
    rw [← Description.category_outline_iff (by decide) (by decide), h,
      Description.category_outline_iff (by decide) (by decide)]
  void id := by
    rw [← Description.category_outline_iff (by decide) (by decide), h,
      Description.category_outline_iff (by decide) (by decide)]
  typeParameters id := (congrArg Description.typeParameters (h id) :)
  superclass id := (congrArg Description.superclass (h id) :)
  interfaces id := (congrArg Description.interfaces (h id) :)
  steps := Or.inl hsize

/-- What scripts have made of the built-in types, in whatever order. -/
structure Registered (scripts : List Script) (s : Schema) : Prop where
  indexed : s.Indexed
  contains : ∀ id, s.contains id ↔ builtIn.contains id ∨ ∃ p ∈ scripts, id ∈ p.listed
  described : ∀ p ∈ scripts, (s.describe p.id).outline = (p.result (builtIn.describe p.id)).outline
  others : ∀ id, (∀ p ∈ scripts, p.id ≠ id) → (s.describe id).outline = (builtIn.describe id).outline

namespace Registered

variable {s t : Schema} {done rest ps qs : List Script} {p : Script}

theorem builtIn : Schema.builtIn.Registered [] :=
  ⟨.builtIn, by simp, by simp, fun _ _ => rfl⟩

/-- One more script changes the description of its own class, which no script has changed before. -/
theorem concat (h : s.Registered done) (hnew : ∀ q ∈ done, q.id ≠ p.id)
    (ht : s.Reshaped p.id p.result p.listed t) : t.Registered (done ++ [p]) where
  indexed := ht.indexed
  contains id := by
    rw [ht.contains, h.contains]
    simp only [List.mem_append, List.mem_singleton, or_and_right, exists_or, exists_eq_left, or_assoc]
  described q hq := by
    rcases List.mem_append.1 hq with hdone | hlast
    · rw [ht.others q.id (hnew q hdone)]
      exact h.described q hdone
    · rw [List.mem_singleton.1 hlast, ht.own]
      exact Script.outline_result (h.others p.id hnew) p
  others id hid := by
    have hne : id ≠ p.id := (hid p (by simp)).symm
    rw [ht.others id hne]
    exact h.others id fun q hq => hid q (List.mem_append_left _ hq)

private theorem script {u : Schema} (h : s.Registered done)
    (hdistinct : Script.Distinct (done ++ p :: rest))
    (hu : Schema.attempt p.operations s = .ok u) : u.Registered (done ++ [p]) :=
  h.concat (fun q hq => (hdistinct.of_before q hq).1) (Script.reshaped h.indexed hu)

/-- Scripts that succeed, one after the other. -/
theorem attempt (h : s.Registered done) (hdistinct : Script.Distinct (done ++ rest))
    (ht : attempt (rest.flatMap Script.operations) s = .ok t) : t.Registered (done ++ rest) := by
  induction rest generalizing done s with
  | nil =>
    cases ht
    rwa [List.append_nil]
  | cons p rest ih =>
    rw [List.flatMap_cons, attempt_append] at ht
    obtain ⟨u, hu, ht⟩ := ht
    have hscript := h.script hdistinct hu
    rw [List.append_cons] at hdistinct ⊢
    exact ih hscript hdistinct ht

/-- The classes are described alike whatever the order of their scripts. -/
theorem outline_eq (hs : s.Registered ps) (ht : t.Registered qs) (hmem : ∀ p, p ∈ ps ↔ p ∈ qs)
    (id : TypeId) : (s.describe id).outline = (t.describe id).outline := by
  by_cases hp : ∃ p ∈ ps, p.id = id
  · obtain ⟨p, hp, rfl⟩ := hp
    rw [hs.described p hp, ht.described p ((hmem p).1 hp)]
  · push Not at hp
    rw [hs.others id hp, ht.others id fun p hq => hp p ((hmem p).2 hq)]

theorem size_eq (hs : s.Registered ps) (ht : t.Registered qs) (hmem : ∀ p, p ∈ ps ↔ p ∈ qs) :
    s.size = t.size := by
  have hkeys : s.types.keys.Perm t.types.keys := by
    refine (List.perm_ext_iff_of_nodup hs.indexed.types_nodup ht.indexed.types_nodup).2 fun id => ?_
    rw [Table.mem_keys_iff, Table.mem_keys_iff]
    change s.contains id ↔ t.contains id
    simp only [hs.contains, ht.contains, hmem]
  simpa [Table.keys, size, Table.size] using hkeys.length_eq

/-- No other type has the name that a class is to be opened under. -/
theorem other?_eq_none (h : s.Registered done) (hnames : ∀ q ∈ done, q.name ≠ p.name)
    (hfree : ∀ type : BuiltIn, p.name ≠ type.name)
    (hapart : ∀ q ∈ done, ∀ id ∈ q.listed, id ≠ q.id → p.id ≠ id → id.defaultName ≠ p.name) :
    s.other? p.id p.name = none := by
  cases howner : s.find? p.name with
  | none => exact other?_eq_none_iff.2 (Or.inl howner)
  | some owner =>
    by_cases hown : p.id = owner
    · exact other?_eq_none_iff.2 (Or.inr (hown ▸ howner))
    · exfalso
      have hnamed : s.nameOf owner = p.name := h.indexed.named _ _ howner
      by_cases hdone : ∃ q ∈ done, q.id = owner
      · obtain ⟨q, hq, rfl⟩ := hdone
        have hname : s.nameOf q.id = q.name :=
          (congrArg Description.name (h.described q hq)).trans (q.result_name _)
        exact hnames q hq (hname.symm.trans hnamed)
      · push Not at hdone
        have hdefault : owner.defaultName = p.name := by
          rw [← hnamed, ← nameOf_builtIn]
          exact (congrArg Description.name (h.others owner hdone)).symm
        rcases (h.contains owner).1 (h.indexed.listed _ _ howner) with hbuiltIn | ⟨q, hq, hlisted⟩
        · obtain ⟨type, rfl⟩ := eq_builtIn_of_contains hbuiltIn
          exact hfree type hdefault.symm
        · exact hapart q hq owner hlisted (hdone q hq).symm hown hdefault

/-- No name that is to come is taken, so that scripts fail for their signatures alone. -/
theorem exists_attempt_iff (h : s.Registered done) (hdistinct : Script.Distinct (done ++ rest))
    (hapart : Script.DefaultsApart (done ++ rest)) :
    (∃ t, Schema.attempt (rest.flatMap Script.operations) s = .ok t) ↔ rest.all Script.fits := by
  induction rest generalizing done s with
  | nil => exact ⟨fun _ => rfl, fun _ => ⟨s, rfl⟩⟩
  | cons p rest ih =>
    have hnone : s.other? p.id p.name = none := by
      refine h.other?_eq_none (fun q hq => (hdistinct.of_before q hq).2) (hdistinct.free p (by simp)) ?_
      intro q hq id hid hne
      exact hapart q (by simp [hq]) id hid hne p (by simp) (hdistinct.of_before q hq).1.symm
    have hfirst (u : Schema) (hu : Schema.attempt p.operations s = .ok u) :
        (∃ t, Schema.attempt (rest.flatMap Script.operations) u = .ok t) ↔ rest.all Script.fits := by
      have hscript := h.script hdistinct hu
      rw [List.append_cons] at hdistinct hapart
      exact ih hscript hdistinct hapart
    have hp := Script.exists_attempt_iff h.indexed p
    simp only [hnone, true_and] at hp
    rw [List.all_cons, Bool.and_eq_true, ← hp]
    simp only [List.flatMap_cons, attempt_append]
    constructor
    · rintro ⟨t, u, hu, ht⟩
      exact ⟨⟨u, hu⟩, (hfirst u hu).1 ⟨t, ht⟩⟩
    · rintro ⟨⟨u, hu⟩, hrest⟩
      obtain ⟨t, ht⟩ := (hfirst u hu).2 hrest
      exact ⟨t, u, hu, ht⟩

end Registered
end Schema

namespace Script

variable {ps qs : List Script}

theorem exists_runAll_iff (h : Distinct ps) (hapart : DefaultsApart ps) :
    (∃ s, runAll ps = .ok s) ↔ ps.all fits :=
  Schema.Registered.builtIn.exists_attempt_iff h hapart

/-- The order in which scripts run does not matter. If they succeed in two orders, all types have the same
names and models, and if default names do not get in the way, they succeed in all orders or in none. -/
theorem runAll_perm (hperm : ps.Perm qs) (h : Distinct ps) :
    (∀ s t, runAll ps = .ok s → runAll qs = .ok t → (∀ id, s.nameOf id = t.nameOf id) ∧
      ∀ id options, ∃ m, Model.build s id options = .ok m ∧ Model.build t id options = .ok m) ∧
    (DefaultsApart ps → ((∃ s, runAll ps = .ok s) ↔ ∃ t, runAll qs = .ok t)) := by
  refine ⟨fun s t hs ht => ?_, fun hapart => ?_⟩
  · have hs' := Schema.Registered.builtIn.attempt h hs
    have ht' := Schema.Registered.builtIn.attempt (h.perm hperm) ht
    have houtline := hs'.outline_eq ht' fun _ => hperm.mem_iff
    have hcongruent := Schema.congruent_of_outline (hs'.size_eq ht' fun _ => hperm.mem_iff) houtline
    refine ⟨hcongruent.name, fun id options => ?_⟩
    obtain ⟨m, hm, _⟩ := Model.Source.exists_build ⟨s, id, options⟩
    refine ⟨m, hm, ?_⟩
    rw [← Model.build_congr hcongruent (fun id => (congrArg Description.methods (houtline id) :))
      (fun id => (congrArg Description.fields (houtline id) :))
      fun id => (congrArg Description.constructors (houtline id) :)]
    exact hm
  · rw [exists_runAll_iff h hapart, exists_runAll_iff (h.perm hperm) (hapart.perm hperm)]
    simp only [List.all_eq_true, hperm.mem_iff]

/-- A class that others are opened before. -/
def parent : Script where
  id := Schema.baseClass
  name := "Parent"
  steps := [.declare (.method { name := "getName", result := some .string, body := .nothing })]

/-- A class that refers to another by identity, under the default name if it is not opened yet. -/
def child : Script where
  id := Schema.derivedClass
  name := "Child"
  steps := [.declare (.superclass { base := some Schema.baseClass })]

theorem runAll_perm_child_first :
    [child, parent].Perm [parent, child] ∧ Distinct [child, parent] ∧ DefaultsApart [child, parent] ∧
      ∃ s t, runAll [child, parent] = .ok s ∧ runAll [parent, child] = .ok t ∧
        ∀ id options, ∃ m, Model.build s id options = .ok m ∧ Model.build t id options = .ok m := by
  have hperm : [child, parent].Perm [parent, child] := .swap ..
  have hdistinct : Distinct [child, parent] :=
    ⟨by decide, by decide, fun p hp type => by cases type <;> revert p <;> decide⟩
  have hapart : DefaultsApart [child, parent] := by unfold DefaultsApart; decide
  obtain ⟨hsame, hiff⟩ := runAll_perm hperm hdistinct
  obtain ⟨s, hs⟩ : ∃ s, runAll [child, parent] = .ok s := ⟨_, rfl⟩
  obtain ⟨t, ht⟩ := (hiff hapart).1 ⟨s, hs⟩
  exact ⟨hperm, hdistinct, hapart, s, t, hs, ht, (hsame s t hs ht).2⟩

/-- A class opened under the default name of another. -/
def namesake : Script where
  id := .described "Namesake" 2
  name := "Base"

/-- Until it is opened, a class that is referred to holds its default name, and no other can have it. -/
theorem runAll_fails_before_parent :
    [child, namesake, parent].Perm [parent, child, namesake] ∧ Distinct [child, namesake, parent] ∧
      runAll [child, namesake, parent] = .error (.nameTaken "Base") ∧
      ∃ t, runAll [parent, child, namesake] = .ok t := by
  have hdistinct : Distinct [child, namesake, parent] :=
    ⟨by decide, by decide, fun p hp type => by cases type <;> revert p <;> decide⟩
  exact ⟨List.perm_append_singleton parent [child, namesake], hdistinct, rfl, _, rfl⟩

end Script
end Introspect
