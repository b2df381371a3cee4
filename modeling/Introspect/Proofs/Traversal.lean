import Introspect.Proofs.Runs
import Introspect.Proofs.Sifting

/-! The scan for methods in two phases. The walk outward lists every method that may be shown, and of each
signature only the first is kept. The walk goes from a class to its interfaces, in preorder, and then to its
superclass, so that it meets the methods in lexicographic order of their places. -/
namespace Introspect.Schema

open List

variable {s : Schema}

/-- A class lists all its methods but bridges. -/
def classMethods (s : Schema) (id : TypeId) : List (Found Method) :=
  ((s.describe id).methods.filter fun m => !m.isBridge).map (⟨·, id, []⟩)

/-- Of an interface only the public ones count. -/
def interfaceMethods (s : Schema) (id : TypeId) : List (Found Method) :=
  ((s.describe id).methods.filter fun m => !m.isBridge && m.visibility = .publicAccess).map (⟨·, id, []⟩)

theorem owner_of_mem_classMethods {id : TypeId} {f : Found Method} (h : f ∈ s.classMethods id) :
    f.owner = id := by
  obtain ⟨m, _, rfl⟩ := mem_map.1 h
  rfl

theorem owner_of_mem_interfaceMethods {id : TypeId} {f : Found Method} (h : f ∈ s.interfaceMethods id) :
    f.owner = id := by
  obtain ⟨m, _, rfl⟩ := mem_map.1 h
  rfl

/-- The methods that interface links lead to, link by link. An interface comes before its superinterfaces,
and is listed again for every link that leads to it. -/
inductive Sweep (s : Schema) : List Link → List (Found Method) → Prop
  | done : Sweep s [] []
  | dangling {l : Link} {links : List Link} {rest : List (Found Method)} (ht : l.target = none)
      (hrest : Sweep s links rest) : Sweep s (l :: links) rest
  | interface {l : Link} {links : List Link} {id : TypeId} {supers rest : List (Found Method)}
      (ht : l.target = some id) (hsupers : Sweep s (s.describe id).interfaces supers)
      (hrest : Sweep s links rest) :
      Sweep s (l :: links) ((s.interfaceMethods id ++ supers).map (.through l) ++ rest)

/-- The methods of a class, of its interfaces, and of its superclasses short of the root. -/
inductive Walk (s : Schema) : TypeId → List (Found Method) → Prop
  | root : Walk s .object []
  | top {id : TypeId} {swept : List (Found Method)} (hid : id ≠ .object)
      (hs : s.superclass? id = none) (hswept : s.Sweep (s.describe id).interfaces swept) :
      Walk s id (s.classMethods id ++ swept)
  | further {id super : TypeId} {l : Link} {swept above : List (Found Method)} (hid : id ≠ .object)
      (hs : s.superclass? id = some (l, super)) (hswept : s.Sweep (s.describe id).interfaces swept)
      (habove : Walk s super above) :
      Walk s id (s.classMethods id ++ swept ++ above.map (.through l))

theorem Sweep.unique {links : List Link} {swept swept' : List (Found Method)} (h : s.Sweep links swept)
    (h' : s.Sweep links swept') : swept = swept' := by
  induction h generalizing swept' with
  | done =>
    cases h'
    rfl
  | dangling ht _ ih =>
    cases h' with
    | dangling _ hrest => exact ih hrest
    | interface ht' => cases ht.symm.trans ht'
  | interface ht _ _ ihsupers ihrest =>
    cases h' with
    | dangling ht' => cases ht.symm.trans ht'
    | interface ht' hsupers hrest =>
      cases ht.symm.trans ht'
      rw [ihsupers hsupers, ihrest hrest]

theorem Walk.unique {id : TypeId} {met met' : List (Found Method)} (h : s.Walk id met)
    (h' : s.Walk id met') : met = met' := by
  induction h generalizing met' with
  | root =>
    cases h' with
    | root => rfl
    | top hid | further hid => exact absurd rfl hid
  | top hid hs hswept =>
    cases h' with
    | root => exact absurd rfl hid
    | top _ _ hswept' => rw [hswept.unique hswept']
    | further _ hs' => cases hs.symm.trans hs'
  | further hid hs hswept _ ih =>
    cases h' with
    | root => exact absurd rfl hid
    | top _ hs' => cases hs.symm.trans hs'
    | further _ hs' hswept' habove' =>
      cases hs.symm.trans hs'
      rw [hswept.unique hswept', ih habove']

private theorem ownMethods_eq_classMethods (id : TypeId) : s.ownMethods false id [] = s.classMethods id := by
  simp [ownMethods, classMethods]

private theorem ownMethods_eq_interfaceMethods (id : TypeId) :
    s.ownMethods true id [] = s.interfaceMethods id := by
  simp [ownMethods, interfaceMethods]

private theorem exists_height_of_interface {n : Nat} {id next : TypeId} {l : Link}
    (h : s.HeightAtMost n id) (hl : l ∈ (s.describe id).interfaces) (ht : l.target = some next) :
    ∃ m < n, s.HeightAtMost m next := by
  have hsuper : next ∈ s.supertypes id := supertype_iff.2 ⟨l, mem_append_right _ hl, ht⟩
  cases n with
  | zero =>
    have hempty : s.supertypes id = [] := h
    simp [hempty] at hsuper
  | succ m => exact ⟨m, Nat.lt_succ_self m, h next hsuper⟩

/-- More steps than there are links above the links visit everything that the sweep lists. -/
private theorem sweep_visits (depth : Nat) {links : List Link}
    (h : ∀ l ∈ links, ∀ next, l.target = some next → ∃ n < depth, s.HeightAtMost n next) :
    s.Sweep links (links.flatMap (s.interfaceVisits depth [])) := by
  induction depth using Nat.strongRecOn generalizing links with
  | ind depth ihdepth =>
    induction links with
    | nil => exact .done
    | cons l links ih =>
      have hrest := ih fun l' hl' => h l' (mem_cons_of_mem l hl')
      rw [flatMap_cons]
      cases ht : l.target with
      | none =>
        have hnone : s.interfaceVisits depth [] l = [] := by
          cases depth with
          | zero => rfl
          | succ depth => rw [interfaceVisits, ht]
        rw [hnone]
        exact .dangling ht hrest
      | some id =>
        obtain ⟨n, hn, hheight⟩ := h l mem_cons_self id ht
        obtain ⟨depth, rfl⟩ : ∃ d, depth = d + 1 := ⟨depth - 1, by omega⟩
        have hsupers := ihdepth depth (Nat.lt_succ_self depth) fun l' hl' next ht' => by
          obtain ⟨m, hm, hnext⟩ := exists_height_of_interface hheight hl' ht'
          exact ⟨m, by omega, hnext⟩
        rw [interfaceVisits_succ depth ht, ownMethods_eq_interfaceMethods]
        exact .interface ht hsupers hrest

private theorem Acyclic.sweep_visits (h : s.Acyclic) (id : TypeId) :
    s.Sweep (s.describe id).interfaces
      ((s.describe id).interfaces.flatMap (s.interfaceVisits s.size [])) :=
  Schema.sweep_visits s.size fun _ hl _ ht => exists_height_of_interface (h.heightAtMost id) hl ht

/-- The walk lists what is met. -/
theorem Acyclic.walk_visits (h : s.Acyclic) (id : TypeId) : s.Walk id (s.visits id) := by
  induction id using h.induction with
  | step id ih =>
    by_cases hid : id = .object
    · have hnone : s.visits id = [] := by
        rw [visits, h.lineage_eq id, takeWhile_cons, if_neg (by simpa using hid), flatMap_nil]
      rw [hnone, hid]
      exact .root
    · rw [h.visits_eq hid, classVisits, ownMethods_eq_classMethods]
      cases hs : s.superclass? id with
      | none =>
        rw [append_nil]
        exact .top hid hs (h.sweep_visits id)
      | some step =>
        obtain ⟨l, super⟩ := step
        obtain ⟨hl, ht⟩ := superclass?_eq_some_iff.1 hs
        exact .further hid hs (h.sweep_visits id) (ih super (supertype_of_superclass hl ht))

/-- The methods that interface links offer, each at a place. The place tells by index which of the links
leads on, and so on from interface to interface. -/
inductive Offers (s : Schema) : List Link → List Nat → Found Method → Prop
  | own {links : List Link} {i : Nat} {l : Link} {id : TypeId} {f : Found Method}
      (hl : links[i]? = some l) (ht : l.target = some id) (hf : f ∈ s.interfaceMethods id) :
      Offers s links [i] (f.through l)
  | super {links : List Link} {i : Nat} {l : Link} {id : TypeId} {place : List Nat} {f : Found Method}
      (hl : links[i]? = some l) (ht : l.target = some id)
      (h : Offers s (s.describe id).interfaces place f) : Offers s links (i :: place) (f.through l)

/-- The methods that may be shown, each at a place. The place tells how many superclass links lead up, short
of the root, and then which interface links lead on. -/
inductive Eligible (s : Schema) : TypeId → List Nat → Found Method → Prop
  | own {id : TypeId} {f : Found Method} (hid : id ≠ .object) (hf : f ∈ s.classMethods id) :
      Eligible s id [0] f
  | interface {id : TypeId} {place : List Nat} {f : Found Method} (hid : id ≠ .object)
      (h : s.Offers (s.describe id).interfaces place f) : Eligible s id (0 :: place) f
  | superclass {id super : TypeId} {l : Link} {n : Nat} {place : List Nat} {f : Found Method}
      (hid : id ≠ .object) (hs : s.superclass? id = some (l, super))
      (h : Eligible s super (n :: place) f) : Eligible s id ((n + 1) :: place) (f.through l)

/-- The lexicographic order of places: a place comes before all that lie beyond it. -/
def NotAfter : List Nat → List Nat → Prop
  | [], _ => True
  | _ :: _, [] => False
  | n :: beyond, n' :: beyond' => n < n' ∨ n = n' ∧ NotAfter beyond beyond'

theorem NotAfter.refl : (place : List Nat) → NotAfter place place
  | [] => trivial
  | _ :: beyond => Or.inr ⟨rfl, refl beyond⟩

private theorem NotAfter.shift {place place' : List Nat} (h : NotAfter place place') :
    NotAfter (place.modifyHead (· + 1)) (place'.modifyHead (· + 1)) := by
  cases place with
  | nil => trivial
  | cons n beyond =>
    cases place' with
    | nil => exact h
    | cons n' beyond' => exact h.imp Nat.succ_lt_succ (And.imp_left (congrArg (· + 1)))

/-- What stands at places is listed in their order. -/
def InOrder (At : List Nat → Found Method → Prop) (found : List (Found Method)) : Prop :=
  ∃ numbered : List (List Nat × Found Method), numbered.map Prod.snd = found ∧
    numbered.Pairwise (fun e e' => NotAfter e.1 e'.1) ∧ ∀ place f, (place, f) ∈ numbered ↔ At place f

namespace InOrder

variable {At At' : List Nat → Found Method → Prop} {found found' : List (Found Method)}

theorem empty : InOrder (fun _ _ => False) [] := ⟨[], rfl, .nil, fun _ _ => ⟨nofun, nofun⟩⟩

theorem mem_iff (h : InOrder At found) (f : Found Method) : f ∈ found ↔ ∃ place, At place f := by
  obtain ⟨numbered, rfl, _, hmem⟩ := h
  constructor
  · intro hf
    obtain ⟨e, he, rfl⟩ := mem_map.1 hf
    exact ⟨e.1, (hmem e.1 e.2).1 he⟩
  · rintro ⟨place, hplace⟩
    exact mem_map.2 ⟨(place, f), (hmem place f).2 hplace, rfl⟩

theorem congr (h : InOrder At found) (heq : ∀ place f, At place f ↔ At' place f) : InOrder At' found := by
  obtain ⟨numbered, hfound, hsorted, hmem⟩ := h
  exact ⟨numbered, hfound, hsorted, fun place f => (hmem place f).trans (heq place f)⟩

theorem through (h : InOrder At found) (l : Link) :
    InOrder (fun place f => ∃ g, At place g ∧ g.through l = f) (found.map (.through l)) := by
  obtain ⟨numbered, rfl, hsorted, hmem⟩ := h
  refine ⟨numbered.map fun e => (e.1, e.2.through l), by simp, ?_, fun place f => ?_⟩
  · exact pairwise_map.2 hsorted
  · rw [mem_map]
    constructor
    · rintro ⟨e, he, heq⟩
      cases heq
      exact ⟨e.2, (hmem e.1 e.2).1 he, rfl⟩
    · rintro ⟨g, hg, rfl⟩
      exact ⟨(place, g), (hmem place g).2 hg, rfl⟩

/-- First what stands at a place itself, then what lies beyond it, and then what stands at later places. -/
theorem append (own : List (Found Method)) (h : InOrder At found) (h' : InOrder At' found')
    (hne : ∀ f, ¬ At' [] f) :
    InOrder (fun place f => place = [0] ∧ f ∈ own ∨ (∃ beyond, place = 0 :: beyond ∧ At beyond f) ∨
      ∃ n beyond, place = (n + 1) :: beyond ∧ At' (n :: beyond) f) (own ++ found ++ found') := by
  obtain ⟨numbered, rfl, hsorted, hmem⟩ := h
  obtain ⟨numbered', rfl, hsorted', hmem'⟩ := h'
  have hlater {e : List Nat × Found Method} (he : e ∈ numbered') : ∃ n beyond, e.1 = n :: beyond := by
    refine exists_cons_of_ne_nil fun hnil => hne e.2 ?_
    exact hnil ▸ (hmem' e.1 e.2).1 he
  refine ⟨own.map (([0], ·)) ++ numbered.map (fun e => (0 :: e.1, e.2)) ++
    numbered'.map (fun e => (e.1.modifyHead (· + 1), e.2)), by simp [Function.comp_def], ?_, ?_⟩
  · simp only [pairwise_append, pairwise_map, mem_append, mem_map]
    refine ⟨⟨pairwise_of_forall fun _ _ => ?_, hsorted.imp fun hle => ?_, ?_⟩, hsorted'.imp fun hle => ?_, ?_⟩
    · exact Or.inr ⟨rfl, trivial⟩
    · exact Or.inr ⟨rfl, hle⟩
    · rintro _ ⟨f, _, rfl⟩ _ ⟨e, _, rfl⟩
      exact Or.inr ⟨rfl, trivial⟩
    · exact hle.shift
    · rintro _ hfirst _ ⟨e, he, rfl⟩
      obtain ⟨n, beyond, hplace⟩ := hlater he
      rw [hplace]
      rcases hfirst with ⟨f, _, rfl⟩ | ⟨e', _, rfl⟩
      · exact Or.inl (Nat.succ_pos n)
      · exact Or.inl (Nat.succ_pos n)
  · intro place f
    simp only [mem_append, mem_map, Prod.mk.injEq, or_assoc]
    refine or_congr ?_ (or_congr ?_ ?_)
    · constructor
      · rintro ⟨g, hg, rfl, rfl⟩
        exact ⟨rfl, hg⟩
      · rintro ⟨rfl, hf⟩
        exact ⟨f, hf, rfl, rfl⟩
    · constructor
      · rintro ⟨e, he, rfl, rfl⟩
        exact ⟨e.1, rfl, (hmem e.1 e.2).1 he⟩
      · rintro ⟨beyond, rfl, hat⟩
        exact ⟨(beyond, f), (hmem beyond f).2 hat, rfl, rfl⟩
    · constructor
      · rintro ⟨e, he, rfl, rfl⟩
        obtain ⟨n, beyond, hplace⟩ := hlater he
        refine ⟨n, beyond, by rw [hplace]; rfl, hplace ▸ (hmem' e.1 e.2).1 he⟩
      · rintro ⟨n, beyond, rfl, hat⟩
        exact ⟨(n :: beyond, f), (hmem' _ f).2 hat, rfl, rfl⟩

/-- Where the first of each kind is kept, it stands at the first place of its kind. -/
theorem first (h : InOrder At found) (kind : Found Method → String) {f : Found Method}
    (hf : f ∈ found.eraseDupsBy fun f g => kind f = kind g) :
    ∃ place, At place f ∧ ∀ place' g, At place' g → kind g = kind f → NotAfter place place' := by
  obtain ⟨numbered, rfl, hsorted, hmem⟩ := h
  obtain ⟨before, after, hsplit, hbefore⟩ := exists_first_of_mem_eraseDupsBy hf
  obtain ⟨before, rest, rfl, rfl, hrest⟩ := map_eq_append_iff.1 hsplit
  obtain ⟨e, after, rfl, rfl, rfl⟩ := map_eq_cons_iff.1 hrest
  refine ⟨e.1, (hmem e.1 e.2).1 (by simp), fun place' g hg hkind => ?_⟩
  rcases mem_append.1 ((hmem place' g).2 hg) with hg | hg
  · exact absurd hkind (hbefore g (mem_map_of_mem hg))
  · rcases mem_cons.1 hg with rfl | hg
    · exact .refl place'
    · exact (pairwise_cons.1 (pairwise_append.1 hsorted).2.1).1 _ hg

end InOrder

theorem ne_nil_of_offers {links : List Link} {place : List Nat} {f : Found Method}
    (h : s.Offers links place f) : place ≠ [] := by
  cases h <;> exact cons_ne_nil _ _

theorem not_offers_nil {links : List Link} {f : Found Method} : ¬ s.Offers links [] f := nofun

theorem not_eligible_nil {id : TypeId} {f : Found Method} : ¬ s.Eligible id [] f := nofun

private theorem offers_cons_iff {l : Link} {links : List Link} {place : List Nat} {f : Found Method} :
    s.Offers (l :: links) place f ↔
      (∃ id, l.target = some id ∧ (place = [0] ∧ f ∈ (s.interfaceMethods id).map (.through l) ∨
        ∃ beyond, place = 0 :: beyond ∧
          ∃ g, s.Offers (s.describe id).interfaces beyond g ∧ g.through l = f)) ∨
      ∃ n beyond, place = (n + 1) :: beyond ∧ s.Offers links (n :: beyond) f := by
  constructor
  · intro h
    cases h with
    | @own _ i _ _ g hl ht hg =>
      cases i with
      | zero =>
        cases hl
        exact Or.inl ⟨_, ht, Or.inl ⟨rfl, mem_map_of_mem hg⟩⟩
      | succ i => exact Or.inr ⟨i, [], rfl, .own hl ht hg⟩
    | @super _ i _ _ beyond g hl ht hg =>
      cases i with
      | zero =>
        cases hl
        exact Or.inl ⟨_, ht, Or.inr ⟨beyond, rfl, g, hg, rfl⟩⟩
      | succ i => exact Or.inr ⟨i, beyond, rfl, .super hl ht hg⟩
  · rintro (⟨id, ht, ⟨rfl, hf⟩ | ⟨beyond, rfl, g, hg, rfl⟩⟩ | ⟨n, beyond, rfl, h⟩)
    · obtain ⟨g, hg, rfl⟩ := mem_map.1 hf
      exact .own rfl ht hg
    · exact .super rfl ht hg
    · cases h with
      | own hl ht hg => exact .own hl ht hg
      | super hl ht hg => exact .super hl ht hg

private theorem eligible_iff {id : TypeId} (hid : id ≠ .object) {place : List Nat} {f : Found Method} :
    s.Eligible id place f ↔ place = [0] ∧ f ∈ s.classMethods id ∨
      (∃ beyond, place = 0 :: beyond ∧ s.Offers (s.describe id).interfaces beyond f) ∨
      ∃ n beyond, place = (n + 1) :: beyond ∧ ∃ l super, s.superclass? id = some (l, super) ∧
        ∃ g, s.Eligible super (n :: beyond) g ∧ g.through l = f := by
  constructor
  · intro h
    cases h with
    | own _ hf => exact Or.inl ⟨rfl, hf⟩
    | interface _ h => exact Or.inr (Or.inl ⟨_, rfl, h⟩)
    | superclass _ hs h => exact Or.inr (Or.inr ⟨_, _, rfl, _, _, hs, _, h, rfl⟩)
  · rintro (⟨rfl, hf⟩ | ⟨beyond, rfl, h⟩ | ⟨n, beyond, rfl, l, super, hs, g, hg, rfl⟩)
    · exact .own hid hf
    · exact .interface hid h
    · exact .superclass hid hs hg

/-- A sweep lists what the links offer, in order. -/
theorem Sweep.inOrder {links : List Link} {swept : List (Found Method)} (h : s.Sweep links swept) :
    InOrder (s.Offers links) swept := by
  induction h with
  | done => exact InOrder.empty.congr fun place f => ⟨False.elim, fun h => by cases h <;> simp_all⟩
  | dangling ht _ ih =>
    refine (InOrder.empty.append [] ih fun _ => not_offers_nil).congr fun place f => ?_
    simp [offers_cons_iff, ht]
  | @interface l links id _ _ ht _ _ ihsupers ihrest =>
    rw [map_append]
    refine ((ihsupers.through l).append _ ihrest fun _ => not_offers_nil).congr fun place f => ?_
    simp [offers_cons_iff, ht, or_assoc]

/-- A walk lists what is eligible, in order. -/
theorem Walk.inOrder {id : TypeId} {met : List (Found Method)} (h : s.Walk id met) :
    InOrder (s.Eligible id) met := by
  induction h with
  | root => exact InOrder.empty.congr fun place f => ⟨False.elim, fun h => by cases h <;> contradiction⟩
  | @top id _ hid hs hswept =>
    have := hswept.inOrder.append (s.classMethods id) InOrder.empty fun _ => False.elim
    rw [append_nil] at this
    refine this.congr fun place f => ?_
    simp [eligible_iff hid, hs]
  | @further id super l _ _ hid hs hswept _ ih =>
    refine (hswept.inOrder.append _ (ih.through l) ?_).congr fun place f => ?_
    · rintro _ ⟨g, hg, _⟩
      exact not_eligible_nil hg
    · simp [eligible_iff hid, hs]

/-- The scan shows just what the walk lists, the first of each signature, with the links that lead to it. No
signature is shown twice, and that of every eligible method is shown. -/
theorem shownMethods_of_walk (h : s.Acyclic) (subject : TypeId) :
    ∃ met, (∀ met', s.Walk subject met' ↔ met' = met) ∧
      s.shownMethods subject = met.eraseDupsBy (fun f g => s.signature f.member = s.signature g.member) ∧
      ((s.shownMethods subject).map fun f => s.signature f.member).Nodup ∧
      ∀ place f, s.Eligible subject place f →
        ∃ g ∈ s.shownMethods subject, s.signature g.member = s.signature f.member := by
  have hwalk := h.walk_visits subject
  refine ⟨s.visits subject, fun met => ⟨fun hmet => hmet.unique hwalk, fun heq => heq ▸ hwalk⟩,
    s.shownMethods_eq subject, shownMethods_signatures_nodup subject, fun place f hf => ?_⟩
  exact exists_shown_of_mem_visits ((hwalk.inOrder.mem_iff f).2 ⟨place, hf⟩)

def ledgerClass : TypeId := .described "Ledger" 3

/-- A class implements an interface, and after it another one that extends it. Its superclass implements the
first one too. -/
def diamond : List Operation := [
  .reopen storeClass {} "Store",
  .declare storeClass .asInterface,
  .declare storeClass (.method { name := "getKey", result := some .string, body := .nothing }),
  .declare storeClass (.method { name := "getName", result := some .string, body := .nothing }),
  .declare storeClass (.method
    { name := "trace", params := [.string], visibility := .privateAccess, body := .nothing }),
  .reopen ledgerClass {} "Ledger",
  .declare ledgerClass .asInterface,
  .declare ledgerClass (.interface { base := some storeClass, upcast := some "Ledger>Store" }),
  .declare ledgerClass (.method { name := "getName", result := some .string, body := .nothing }),
  .reopen baseClass {} "Base",
  .declare baseClass (.interface { base := some storeClass, upcast := some "Base>Store" }),
  .declare baseClass (.method { name := "getKey", result := some .string, body := .nothing }),
  .reopen derivedClass {} "Derived",
  .declare derivedClass (.superclass { base := some baseClass, upcast := some "Derived>Base" }),
  .declare derivedClass (.interface { base := none }),
  .declare derivedClass (.interface { base := some storeClass, upcast := some "Derived>Store" }),
  .declare derivedClass (.interface { base := some ledgerClass, upcast := some "Derived>Ledger" })]

theorem diamond_acyclic : (run diamond).Acyclic :=
  acyclic_of_rank (fun id => if id = ledgerClass then 1 else classRank id) (by decide +kernel)

/-- The first interface is met three times, and its methods are shown once. -/
theorem shownMethods_of_walk_diamond :
    let s := run diamond
    s.Acyclic ∧ ∃ met, s.Walk derivedClass met ∧
      met.map (fun f => (f.owner, f.member.name, f.upcasts)) =
        [(storeClass, "getKey", [some "Derived>Store"]), (storeClass, "getName", [some "Derived>Store"]),
          (ledgerClass, "getName", [some "Derived>Ledger"]),
          (storeClass, "getKey", [some "Derived>Ledger", some "Ledger>Store"]),
          (storeClass, "getName", [some "Derived>Ledger", some "Ledger>Store"]),
          (baseClass, "getKey", [some "Derived>Base"]),
          (storeClass, "getKey", [some "Derived>Base", some "Base>Store"]),
          (storeClass, "getName", [some "Derived>Base", some "Base>Store"])] ∧
      s.shownMethods derivedClass =
        met.eraseDupsBy (fun f g => s.signature f.member = s.signature g.member) ∧
      (s.shownMethods derivedClass).map (fun f => (s.signature f.member, f.upcasts)) =
        [("string#getKey", [some "Derived>Store"]), ("string#getName", [some "Derived>Store"])] := by
  intro s
  have hacyclic : s.Acyclic := diamond_acyclic
  obtain ⟨met, hmet, hshown, _⟩ := shownMethods_of_walk hacyclic derivedClass
  have hvisits := (hmet _).1 (hacyclic.walk_visits derivedClass)
  subst hvisits
  exact ⟨hacyclic, _, (hmet _).2 rfl, by decide +kernel, hshown, by decide +kernel⟩

end Introspect.Schema
