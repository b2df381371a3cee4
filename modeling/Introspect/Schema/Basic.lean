import Introspect.Schema.Description

/-! A schema: the types described so far, by identity and by name. A type once listed stays listed;
its name may change. -/
namespace Introspect

structure Schema where
  types : Table TypeId Description := ∅
  names : Table String TypeId := ∅

/-- The category of a type of which only the identity is known. -/
def TypeId.category : TypeId → Category
  | builtIn .void => .void
  | builtIn .object => .concrete
  | builtIn .string => .concrete
  | builtIn .list => .interface
  | builtIn _ => .primitive
  | enumeration _ => .primitive
  | record _ => .concrete
  | described _ _ => .concrete

/-- A list is an interface with one parameter; the other built-in types have no structure. -/
def Description.ofBuiltIn (type : BuiltIn) : Description :=
  { placeholder type.name (TypeId.builtIn type).category with
    isAbstract := type = .list
    typeParameters := if type = .list then [{ name := "E" }] else [] }

namespace Schema

/-- The schema of the built-in types. -/
def builtIn : Schema where
  types := BuiltIn.all.foldl (fun t b => t.insert (.builtIn b) (.ofBuiltIn b)) ∅
  names := BuiltIn.all.foldl (fun t b => t.insert b.name (.builtIn b)) ∅

def contains (s : Schema) (id : TypeId) : Bool := s.types.contains id

def size (s : Schema) : Nat := s.types.size

/-- A type that is not listed counts as a bare placeholder. -/
def describe (s : Schema) (id : TypeId) : Description :=
  (s.types.get? id).getD (.placeholder id.defaultName id.category)

theorem describe_eq_placeholder {s : Schema} {id : TypeId} (h : id ∉ s.types.keys) :
    s.describe id = .placeholder id.defaultName id.category := by
  have hnone : s.types.get? id = none := by
    simpa [Table.mem_keys_iff, Table.contains] using h
  rw [describe, hnone, Option.getD_none]

def find? (s : Schema) (name : String) : Option TypeId := s.names.get? name

def named (s : Schema) (name : String) : Except Failure TypeId :=
  match s.find? name with
  | some id => .ok id
  | none => .error (.notRegistered name)

/-- The type itself if it is listed, or a failure that tells what was asked for. -/
def known (s : Schema) (id : TypeId) (asked : String) : Except Failure TypeId :=
  if s.contains id then .ok id else .error (.notRegistered asked)

def nameOf (s : Schema) (id : TypeId) : String := (s.describe id).name

/-- The current name of the element, with a pair of brackets for each rank. -/
def typeName (s : Schema) (t : RuntimeType) : String :=
  match t.element with
  | some id => s.nameOf id ++ String.join (List.replicate t.rank.toNat "[]")
  | none => "<invalid>"

def exprText (s : Schema) (e : TypeExpr) : String := e.text s.typeName

/-- Arrays belong to no category. -/
def hasCategory (s : Schema) (t : RuntimeType) (category : Category) : Bool :=
  t.rank = 0 && t.element.any fun id => (s.describe id).category = category

def isPrimitive (s : Schema) (t : RuntimeType) : Bool := s.hasCategory t .primitive

def isVoid (s : Schema) (t : RuntimeType) : Bool := s.hasCategory t .void

def isInterface (s : Schema) (t : RuntimeType) : Bool := s.hasCategory t .interface

/-- Lists a type as a placeholder if it is new. It gets the name only if no other type has it. -/
def ensure (s : Schema) (id : TypeId) (name : String) (category : Category) : Schema :=
  if s.contains id then s
  else
    { types := s.types.insert id (.placeholder name category)
      names := s.names.insertIfNew name id }

def mention (s : Schema) (id : TypeId) : Schema := s.ensure id id.defaultName id.category

def mentionAll (s : Schema) (ids : List TypeId) : Schema := ids.foldl mention s

def update (s : Schema) (id : TypeId) (f : Description → Description) : Schema :=
  { s with types := s.types.modify id f }

/-- Gives a type a name that no other type has. Its former name becomes free if the type held it. -/
def rename (s : Schema) (id : TypeId) (name : String) : Except Failure Schema :=
  match s.find? name with
  | some owner => if owner = id then .ok s else .error (.nameTaken name)
  | none =>
    let former := s.nameOf id
    let names := if s.find? former = some id then s.names.erase former else s.names
    .ok { s.update id ({ · with name }) with names := names.insert name id }

end Schema
end Introspect
