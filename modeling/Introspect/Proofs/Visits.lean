import Introspect.Proofs.Routes

/-! The methods that a type meets in its hierarchy, in order and as often as they are met. Superclass links
and then interface links lead to each of them. -/
namespace Introspect

/-- What is found from a type, as it is found from a subtype that holds a link to the type. -/
def Found.through {α : Type} (l : Link) (f : Found α) : Found α := { f with route := l :: f.route }

@[simp] theorem Found.member_through {α : Type} (l : Link) (f : Found α) :
    (f.through l).member = f.member := rfl

@[simp] theorem Found.owner_through {α : Type} (l : Link) (f : Found α) :
    (f.through l).owner = f.owner := rfl

@[simp] theorem Found.upcasts_through {α : Type} (l : Link) (f : Found α) :
    (f.through l).upcasts = l.upcast :: f.upcasts := rfl

namespace Schema

variable {s : Schema}

/-- A chain of interface links. -/
inductive Sideways (s : Schema) : TypeId → List Link → TypeId → Prop
  | here (id : TypeId) : Sideways s id [] id
  | step {id next top : TypeId} {l : Link} {route : List Link}
      (hl : l ∈ (s.describe id).interfaces) (ht : l.target = some next)
      (h : Sideways s next route top) : Sideways s id (l :: route) top

theorem Sideways.concat {id last next : TypeId} {l : Link} {route : List Link}
    (h : s.Sideways id route last) (hl : l ∈ (s.describe last).interfaces) (ht : l.target = some next) :
    s.Sideways id (route ++ [l]) next := by
  induction h with
  | here => exact .step hl ht (.here next)
  | step hl' ht' _ ih => exact .step hl' ht' (ih hl)

theorem Route.of_sideways {id top : TypeId} {route : List Link} (h : s.Sideways id route top) :
    s.Route id route top := by
  induction h with
  | here id => exact .here id
  | step hl ht _ ih => exact .step (List.mem_append_right _ hl) ht ih

/-- Superclass links and then interface links lead to a type. -/
def Approach (s : Schema) (subject : TypeId) (route : List Link) (id : TypeId) : Prop :=
  ∃ classes top interfaces, s.Outward subject classes top ∧ s.Sideways top interfaces id ∧
    route = classes ++ interfaces

namespace Approach

variable {subject id : TypeId} {route : List Link}

theorem of_outward (h : s.Outward subject route id) : s.Approach subject route id :=
  ⟨route, id, [], h, .here id, (List.append_nil route).symm⟩

theorem interface (h : s.Approach subject route id) {l : Link} {next : TypeId}
    (hl : l ∈ (s.describe id).interfaces) (ht : l.target = some next) :
    s.Approach subject (route ++ [l]) next := by
  obtain ⟨classes, top, interfaces, houtward, hsideways, rfl⟩ := h
  exact ⟨classes, top, interfaces ++ [l], houtward, hsideways.concat hl ht, List.append_assoc ..⟩

theorem toRoute (h : s.Approach subject route id) : s.Route subject route id := by
  obtain ⟨classes, top, interfaces, houtward, hsideways, rfl⟩ := h
  exact (Route.of_outward houtward).append (Route.of_sideways hsideways)

end Approach

/-- The methods of an interface and after them those of its superinterfaces. An interface to which several
links lead is met once for each. -/
def interfaceVisits (s : Schema) : (depth : Nat) → (route : List Link) → Link → List (Found Method)
  | 0, _, _ => []
  | depth + 1, route, l =>
    match l.target with
    | none => []
    | some id =>
      s.ownMethods true id (route ++ [l]) ++
        (s.describe id).interfaces.flatMap (s.interfaceVisits depth (route ++ [l]))

/-- The methods of a class and after them those of its interfaces. -/
def classVisits (s : Schema) (step : TypeId × List Link) : List (Found Method) :=
  s.ownMethods false step.1 step.2 ++
    (s.describe step.1).interfaces.flatMap (s.interfaceVisits s.size step.2)

/-- Every method that may be shown, in the order in which it is met. -/
def visits (s : Schema) (subject : TypeId) : List (Found Method) :=
  ((s.lineage subject).takeWhile (·.1 ≠ .object)).flatMap s.classVisits

/-- A type at the end of the route lists the method. -/
def Listed (s : Schema) (subject : TypeId) (f : Found Method) : Prop :=
  s.Approach subject f.route f.owner ∧ f.member ∈ (s.describe f.owner).methods

private theorem ownMethods_listed {subject id : TypeId} {route : List Link}
    (hroute : s.Approach subject route id) (publicOnly : Bool) :
    ∀ f ∈ s.ownMethods publicOnly id route, s.Listed subject f := by
  intro f hf
  obtain ⟨m, hm, rfl⟩ := List.mem_map.1 hf
  exact ⟨hroute, (List.mem_filter.1 hm).1⟩

private theorem interfaceVisits_listed (depth : Nat) {subject id : TypeId} {route : List Link}
    (hroute : s.Approach subject route id) {l : Link} (hl : l ∈ (s.describe id).interfaces) :
    ∀ f ∈ s.interfaceVisits depth route l, s.Listed subject f := by
  induction depth generalizing id route l with
  | zero => exact fun f hf => absurd hf List.not_mem_nil
  | succ depth ih =>
    intro f hf
    unfold interfaceVisits at hf
    split at hf
    · exact absurd hf List.not_mem_nil
    · rename_i next ht
      have hnext := hroute.interface hl ht
      rcases List.mem_append.1 hf with hown | hsuper
      · exact ownMethods_listed hnext _ f hown
      · obtain ⟨l', hl', hf⟩ := List.mem_flatMap.1 hsuper
        exact ih hnext hl' f hf

/-- Each method met is listed by a type at the end of its route. -/
theorem visits_listed (subject : TypeId) : ∀ f ∈ s.visits subject, s.Listed subject f := by
  intro f hf
  obtain ⟨step, hstep, hf⟩ := List.mem_flatMap.1 hf
  have hroute := Approach.of_outward (outward_of_mem_lineage (List.takeWhile_subset _ hstep))
  rcases List.mem_append.1 hf with hown | hinterface
  · exact ownMethods_listed hroute _ f hown
  · obtain ⟨l, hl, hf⟩ := List.mem_flatMap.1 hinterface
    exact interfaceVisits_listed _ hroute hl f hf

private theorem ownMethods_cons (publicOnly : Bool) (id : TypeId) (l : Link) (route : List Link) :
    s.ownMethods publicOnly id (l :: route) = (s.ownMethods publicOnly id route).map (.through l) := by
  simp [ownMethods, Found.through]

private theorem interfaceVisits_cons (depth : Nat) (l : Link) (route : List Link) (link : Link) :
    s.interfaceVisits depth (l :: route) link =
      (s.interfaceVisits depth route link).map (.through l) := by
  induction depth generalizing route link with
  | zero => rfl
  | succ depth ih =>
    unfold interfaceVisits
    cases link.target with
    | none => rfl
    | some id =>
      dsimp only
      rw [List.cons_append, ownMethods_cons, List.map_append, List.map_flatMap]
      congr 2
      funext link
      exact ih _ link

/-- Seen from the type that holds the link, an interface comes before its superinterfaces. -/
theorem interfaceVisits_succ (depth : Nat) {l : Link} {id : TypeId} (ht : l.target = some id) :
    s.interfaceVisits (depth + 1) [] l =
      (s.ownMethods true id [] ++
        (s.describe id).interfaces.flatMap (s.interfaceVisits depth [])).map (.through l) := by
  rw [interfaceVisits, ht]
  dsimp only
  rw [List.nil_append, ownMethods_cons, List.map_append, List.map_flatMap]
  congr 2
  funext link
  exact interfaceVisits_cons depth l [] link

private theorem classVisits_cons (id : TypeId) (l : Link) (route : List Link) :
    s.classVisits (id, l :: route) = (s.classVisits (id, route)).map (.through l) := by
  unfold classVisits
  rw [ownMethods_cons, List.map_append, List.map_flatMap]
  congr 2
  funext link
  exact interfaceVisits_cons _ l route link

/-- A class other than the root meets its own methods and those of its interfaces, and then all that its
superclass meets. -/
theorem Acyclic.visits_eq (h : s.Acyclic) {id : TypeId} (hid : id ≠ .object) :
    s.visits id = s.classVisits (id, []) ++
      match s.superclass? id with
      | some (l, super) => (s.visits super).map (.through l)
      | none => [] := by
  unfold visits
  rw [h.lineage_eq id, List.takeWhile_cons, if_pos (by simpa using hid), List.flatMap_cons]
  congr 1
  cases s.superclass? id with
  | none => rfl
  | some step =>
    dsimp only
    rw [List.takeWhile_map, List.flatMap_map, List.map_flatMap]
    congr 1
    funext step
    exact classVisits_cons step.1 _ step.2

end Schema
end Introspect
