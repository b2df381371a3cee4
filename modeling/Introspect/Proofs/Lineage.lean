import Introspect.Proofs.Acyclicity

/-! The superclass chain of a type, its fields from the type outward, and the first of them that meets a
condition. -/
namespace Introspect.Schema

variable {s : Schema}

/-- A route of superclass links from a type outward. -/
inductive Outward (s : Schema) : TypeId → List Link → TypeId → Prop
  | here (id : TypeId) : Outward s id [] id
  | step {id super top : TypeId} {l : Link} {route : List Link}
      (hl : (s.describe id).superclass = some l) (ht : l.target = some super)
      (h : Outward s super route top) : Outward s id (l :: route) top

/-- The first field that meets a condition. A field of the type itself comes before all fields of its
superclass. -/
inductive FirstField (s : Schema) (p : Field → Bool) : TypeId → Found Field → Prop
  | own {id : TypeId} {f : Field} (h : (s.describe id).fields.find? p = some f) :
      FirstField s p id ⟨f, id, []⟩
  | inherited {id super : TypeId} {l : Link} {f : Found Field}
      (hnone : ∀ g ∈ (s.describe id).fields, ¬ p g)
      (hl : (s.describe id).superclass = some l) (ht : l.target = some super)
      (h : FirstField s p super f) : FirstField s p id { f with route := l :: f.route }

theorem supertype_of_superclass {id super : TypeId} {l : Link}
    (hl : (s.describe id).superclass = some l) (ht : l.target = some super) :
    super ∈ s.supertypes id := by
  simp only [supertypes, Description.supertypes, Description.links, hl]
  exact List.mem_filterMap.2 ⟨l, by simp, ht⟩

/-- The superclass of a type, with the link to it. -/
def superclass? (s : Schema) (id : TypeId) : Option (Link × TypeId) :=
  (s.describe id).superclass.bind fun l => l.target.map (l, ·)

theorem superclass?_eq_some_iff {id super : TypeId} {l : Link} :
    s.superclass? id = some (l, super) ↔
      (s.describe id).superclass = some l ∧ l.target = some super := by
  simp only [superclass?, Option.bind_eq_some_iff, Option.map_eq_some_iff, Prod.mk.injEq]
  constructor
  · intro h
    obtain ⟨_, hl, _, ht, rfl, rfl⟩ := h
    exact ⟨hl, ht⟩
  · intro h
    exact ⟨l, h.1, super, h.2, rfl, rfl⟩

theorem lineageWithin_succ (depth : Nat) (id : TypeId) (route : List Link) :
    s.lineageWithin (depth + 1) id route = (id, route) ::
      match s.superclass? id with
      | some (l, super) => s.lineageWithin depth super (route ++ [l])
      | none => [] := by
  unfold superclass?
  rw [lineageWithin]
  cases (s.describe id).superclass with
  | none => rfl
  | some l => cases ht : l.target <;> simp [ht]

theorem member_mem_fields {id : TypeId} {f : Found Field} (h : f ∈ s.shownFields id) :
    f.member ∈ (s.describe f.owner).fields := by
  obtain ⟨step, _, hf⟩ := List.mem_flatMap.1 h
  obtain ⟨g, hg, rfl⟩ := List.mem_map.1 hf
  exact hg

/-- More steps than the type has links above it change nothing. -/
theorem lineageWithin_eq {n d e : Nat} {id : TypeId} (h : s.HeightAtMost n id) (hd : n ≤ d)
    (he : n ≤ e) (route : List Link) : s.lineageWithin d id route = s.lineageWithin e id route := by
  induction n generalizing d e id route with
  | zero =>
    have hnone : s.superclass? id = none := by
      by_contra hne
      obtain ⟨⟨l, super⟩, hs⟩ := Option.ne_none_iff_exists'.1 hne
      obtain ⟨hl, ht⟩ := superclass?_eq_some_iff.1 hs
      have hempty : s.supertypes id = [] := h
      have hmem := supertype_of_superclass hl ht
      simp [hempty] at hmem
    have htop (k : Nat) : s.lineageWithin k id route = [(id, route)] := by
      cases k with
      | zero => rfl
      | succ k => rw [lineageWithin_succ, hnone]
    rw [htop, htop]
  | succ n ih =>
    obtain ⟨d, rfl⟩ := Nat.exists_eq_add_of_lt hd
    obtain ⟨e, rfl⟩ := Nat.exists_eq_add_of_lt he
    rw [lineageWithin_succ, lineageWithin_succ]
    cases hs : s.superclass? id with
    | none => rfl
    | some step =>
      obtain ⟨l, super⟩ := step
      obtain ⟨hl, ht⟩ := superclass?_eq_some_iff.1 hs
      exact congrArg _ (ih (h super (supertype_of_superclass hl ht)) (by omega) (by omega) _)

private theorem lineageWithin_route (depth : Nat) (id : TypeId) (route : List Link) :
    s.lineageWithin depth id route =
      (s.lineageWithin depth id []).map fun step => (step.1, route ++ step.2) := by
  induction depth generalizing id route with
  | zero => simp [lineageWithin]
  | succ depth ih =>
    rw [lineageWithin_succ, lineageWithin_succ]
    cases s.superclass? id with
    | none => simp
    | some step =>
      obtain ⟨l, super⟩ := step
      dsimp only
      rw [ih super (route ++ [l]), ih super ([] ++ [l])]
      simp [Function.comp_def]

/-- Each type of the chain comes with the superclass links that lead to it. -/
theorem outward_of_mem_lineage {id : TypeId} {step : TypeId × List Link} (h : step ∈ s.lineage id) :
    s.Outward id step.2 step.1 := by
  unfold lineage at h
  generalize s.size = depth at h
  induction depth generalizing id step with
  | zero =>
    rw [List.mem_singleton.1 h]
    exact .here id
  | succ depth ih =>
    rw [lineageWithin_succ] at h
    rcases List.mem_cons.1 h with rfl | h
    · exact .here id
    · cases hs : s.superclass? id with
      | none => simp [hs] at h
      | some next =>
        obtain ⟨l, super⟩ := next
        obtain ⟨hl, ht⟩ := superclass?_eq_some_iff.1 hs
        simp only [hs] at h
        rw [lineageWithin_route] at h
        obtain ⟨step, hm, rfl⟩ := List.mem_map.1 h
        exact .step hl ht (ih hm)

/-- A type, and then its superclass's chain seen through the link to it. -/
theorem Acyclic.lineage_eq (h : s.Acyclic) (id : TypeId) :
    s.lineage id = (id, []) ::
      match s.superclass? id with
      | some (l, super) => (s.lineage super).map fun step => (step.1, l :: step.2)
      | none => [] := by
  have hmore : s.lineage id = s.lineageWithin (s.size + 1) id [] :=
    lineageWithin_eq (h.heightAtMost id) (Nat.le_refl _) (Nat.le_succ _) []
  rw [hmore, lineageWithin_succ]
  cases s.superclass? id with
  | none => rfl
  | some step => exact congrArg _ (lineageWithin_route _ _ _)

theorem Acyclic.shownFields_eq (h : s.Acyclic) (id : TypeId) :
    s.shownFields id = (s.describe id).fields.map (⟨·, id, []⟩) ++
      match s.superclass? id with
      | some (l, super) => (s.shownFields super).map fun f => { f with route := l :: f.route }
      | none => [] := by
  unfold shownFields
  rw [h.lineage_eq id, List.flatMap_cons]
  cases s.superclass? id with
  | none => rfl
  | some step => simp [List.flatMap_map, List.map_flatMap, Function.comp_def]

/-- The fields shown are those of the types on the superclass chain. -/
theorem Acyclic.mem_shownFields_iff (h : s.Acyclic) (id : TypeId) (f : Found Field) :
    f ∈ s.shownFields id ↔ s.Outward id f.route f.owner ∧ f.member ∈ (s.describe f.owner).fields := by
  induction id using h.induction generalizing f with
  | step id ih =>
    rw [h.shownFields_eq id, List.mem_append]
    constructor
    · intro hm
      rcases hm with hm | hm
      · obtain ⟨g, hg, rfl⟩ := List.mem_map.1 hm
        exact ⟨.here id, hg⟩
      · cases hs : s.superclass? id with
        | none => simp [hs] at hm
        | some step =>
          obtain ⟨l, super⟩ := step
          obtain ⟨hl, ht⟩ := superclass?_eq_some_iff.1 hs
          simp only [hs] at hm
          obtain ⟨g, hg, rfl⟩ := List.mem_map.1 hm
          obtain ⟨hout, hfield⟩ := (ih super (supertype_of_superclass hl ht) g).1 hg
          exact ⟨.step hl ht hout, hfield⟩
    · intro hm
      obtain ⟨hout, hfield⟩ := hm
      obtain ⟨member, owner, route⟩ := f
      cases hout with
      | here => exact Or.inl (List.mem_map.2 ⟨member, hfield, rfl⟩)
      | @step _ super _ l route hl ht hout =>
        right
        rw [superclass?_eq_some_iff.2 ⟨hl, ht⟩]
        refine List.mem_map.2 ⟨⟨member, owner, route⟩, ?_, rfl⟩
        exact (ih super (supertype_of_superclass hl ht) _).2 ⟨hout, hfield⟩

/-- Looking through the fields shown finds the first field. -/
theorem Acyclic.find?_shownFields_iff (h : s.Acyclic) (p : Field → Bool) (id : TypeId)
    (f : Found Field) :
    (s.shownFields id).find? (fun g => p g.member) = some f ↔ s.FirstField p id f := by
  induction id using h.induction generalizing f with
  | step id ih =>
    have hfind : ((s.describe id).fields.map (⟨·, id, []⟩)).find? (fun g : Found Field => p g.member) =
        ((s.describe id).fields.find? p).map (⟨·, id, []⟩) := by
      rw [List.find?_map]
      rfl
    rw [h.shownFields_eq id, List.find?_append, hfind]
    cases hown : (s.describe id).fields.find? p with
    | some g =>
      simp only [Option.map_some, Option.some_or, Option.some.injEq]
      constructor
      · intro hf
        subst hf
        exact .own hown
      · intro hf
        cases hf with
        | own hf => rw [hown] at hf; cases hf; rfl
        | inherited hnone =>
          exact absurd (List.find?_some hown) (hnone g (List.mem_of_find?_eq_some hown))
    | none =>
      simp only [Option.map_none, Option.none_or]
      have hnone : ∀ g ∈ (s.describe id).fields, ¬ p g := by simpa using hown
      constructor
      · intro hf
        cases hs : s.superclass? id with
        | none => simp [hs] at hf
        | some step =>
          obtain ⟨l, super⟩ := step
          obtain ⟨hl, ht⟩ := superclass?_eq_some_iff.1 hs
          simp only [hs, List.find?_map, Option.map_eq_some_iff] at hf
          obtain ⟨g, hg, rfl⟩ := hf
          exact .inherited hnone hl ht ((ih super (supertype_of_superclass hl ht) g).1 hg)
      · intro hf
        cases hf with
        | own hf => rw [hown] at hf; cases hf
        | @inherited _ super l g _ hl ht hg =>
          rw [superclass?_eq_some_iff.2 ⟨hl, ht⟩]
          simp only [List.find?_map, Option.map_eq_some_iff]
          exact ⟨g, (ih super (supertype_of_superclass hl ht) g).2 hg, rfl⟩

end Introspect.Schema
