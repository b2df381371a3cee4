import Introspect.Schema.Basic

/-! The members a type shows: its own and those of its supertypes, each with the links that lead to
the type that lists it. -/
namespace Introspect

structure Found (α : Type) where
  member : α
  owner : TypeId
  route : List Link

/-- The upcasts that lead to the member. -/
def Found.upcasts {α : Type} (f : Found α) : List (Option String) := f.route.map (·.upcast)

/-- The methods kept so far, with the signatures met. -/
structure Sieve where
  seen : List String := []
  kept : List (Found Method) := []

/-- A method is kept if its signature is new. -/
def Sieve.add (signature : Method → String) (sieve : Sieve) (f : Found Method) : Sieve :=
  if signature f.member ∈ sieve.seen then sieve
  else { seen := signature f.member :: sieve.seen, kept := sieve.kept ++ [f] }

namespace Schema

/-- The erased signature in the current names of types. -/
def signature (s : Schema) (m : Method) : String :=
  let params := m.params.map s.typeName
  s.typeName m.returns ++ "#" ++ m.name ++ (if params.isEmpty then "" else ":" ++ ",".intercalate params)

/-- A type and its superclasses, each with the links that lead to it, at most `depth` of them. -/
def lineageWithin (s : Schema) : (depth : Nat) → TypeId → List Link → List (TypeId × List Link)
  | 0, id, route => [(id, route)]
  | depth + 1, id, route =>
    (id, route) ::
      match (s.describe id).superclass with
      | some l =>
        match l.target with
        | some super => s.lineageWithin depth super (route ++ [l])
        | none => []
      | none => []

def lineage (s : Schema) (id : TypeId) : List (TypeId × List Link) := s.lineageWithin s.size id []

/-- The methods a type lists itself. Bridges are not shown, and an interface shows what is public. -/
def ownMethods (s : Schema) (publicOnly : Bool) (id : TypeId) (route : List Link) :
    List (Found Method) :=
  ((s.describe id).methods.filter fun m =>
    !m.isBridge && (!publicOnly || m.visibility = .publicAccess)).map fun m => ⟨m, id, route⟩

def siftOwn (s : Schema) (publicOnly : Bool) (id : TypeId) (route : List Link) (sieve : Sieve) : Sieve :=
  (s.ownMethods publicOnly id route).foldl (Sieve.add s.signature) sieve

/-- An interface comes before its superinterfaces. -/
def siftInterface (s : Schema) : (depth : Nat) → (route : List Link) → Sieve → Link → Sieve
  | 0, _, sieve, _ => sieve
  | depth + 1, route, sieve, l =>
    match l.target with
    | none => sieve
    | some id =>
      (s.describe id).interfaces.foldl (s.siftInterface depth (route ++ [l]))
        (s.siftOwn true id (route ++ [l]) sieve)

/-- A class comes before its interfaces. -/
def siftClass (s : Schema) (sieve : Sieve) (step : TypeId × List Link) : Sieve :=
  (s.describe step.1).interfaces.foldl (s.siftInterface s.size step.2)
    (s.siftOwn false step.1 step.2 sieve)

/-- From the subject outward to its last superclass before the root. Of methods with one signature
the first is shown. -/
def shownMethods (s : Schema) (subject : TypeId) : List (Found Method) :=
  (((s.lineage subject).takeWhile (·.1 ≠ .object)).foldl s.siftClass {}).kept

/-- From the subject outward. A field hides no other. -/
def shownFields (s : Schema) (subject : TypeId) : List (Found Field) :=
  (s.lineage subject).flatMap fun (id, route) => (s.describe id).fields.map fun f => ⟨f, id, route⟩

end Schema
end Introspect
