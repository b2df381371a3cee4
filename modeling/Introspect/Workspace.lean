import Introspect.Model.Cache
import Introspect.Schema.Amendment
import Introspect.Schema.Declaration

/-! A workspace: a schema, the memory of the host, and the models, objects and caches kept in it by
name. -/
namespace Introspect

structure Workspace where
  schema : Schema := .builtIn
  memory : Memory := {}
  models : Table String Model := ∅
  objects : Table String ObjectRef := ∅
  caches : Table String ModelCache := ∅
  lookups : Nat := 0

/-- Work in a workspace. What it changed before it failed stays changed. -/
abbrev WorkspaceM := ExceptT Failure (StateM Workspace)

namespace Workspace

def accessor (w : Workspace) (model : String) (side : Side) (property : String) :
    Except Failure Accessor :=
  match w.models.get? model with
  | some m => m.accessor w.schema side property
  | none => .error (.notRegistered model)

/-- An accessor that is used again while it runs on the same object would never end. As a chain of
property calls has one object and may lose it, each accessor runs at most twice in it, and the last
call of the chain may find no accessor. -/
def depth (w : Workspace) : Nat :=
  let accessors := w.models.values.map fun m => m.readable.names.length + m.writable.names.length
  2 * accessors.foldl (· + ·) 0 + 1

def propertyCall (w : Workspace) : PropertyCall := Accessor.propertyCall w.accessor w.depth

/-- Runs host code and tells how it ended and which upcasts it made. -/
def runHost {α : Type} (w : Workspace) (code : HostM α) :
    (Except Failure α × List String) × Workspace :=
  let (result, memory) := code.exec { w.memory with upcasts := [] }
  ((result, memory.upcasts), { w with memory })

def invoke (w : Workspace) (a : Accessor) (self : Option ObjectRef) (args : List Value) :
    (Except Failure Value × List String) × Workspace :=
  w.runHost (a.invoke w.propertyCall self args)

def keepModel (w : Workspace) (name : Option String) (m : Model) : Workspace :=
  name.elim w fun name => { w with models := w.models.insert name m }

def keepObject (w : Workspace) (name : Option String) (self : ObjectRef) : Workspace :=
  name.elim w fun name => { w with objects := w.objects.insert name self }

def newObject (w : Workspace) (name : String) : Workspace :=
  let (self, memory) := w.memory.allocate
  { w with memory }.keepObject (some name) self

def newGlobal (w : Workspace) (v : Value) : Nat × Workspace :=
  let (index, memory) := w.memory.declareGlobal v
  (index, { w with memory })

/-- Makes an object and tells what its slots hold. A value of a built-in type has no slots, and is not
kept. -/
def construct (w : Workspace) (c : Constructor) (type : TypeId) (name : Option String)
    (args : List Value) : Except Failure (Option (Table String Value)) × Workspace :=
  let ((result, _), w) := w.runHost (c.construct w.schema w.propertyCall args)
  match result, type with
  | .error f, _ => (.error f, w)
  | .ok _, .builtIn _ => (.ok none, w)
  | .ok self, _ => (.ok (some (w.memory.slots (some self))), w.keepObject name self)

/-- Asks a cache for a model. The stamp is the number of lookups before this one. -/
def lookup (w : Workspace) (cache : String) (type : TypeId) (name : Option String) :
    Except Failure (Nat × Model) × Workspace :=
  let c := (w.caches.get? cache).getD {}
  match c.find w.schema type w.lookups with
  | .error f => (.error f, w)
  | .ok (found, c) =>
    (.ok found, { w.keepModel name found.2 with
      caches := w.caches.insert cache c
      lookups := w.lookups + 1 })

def updateCache (w : Workspace) (cache : String) (f : ModelCache → ModelCache) : Workspace :=
  { w with caches := w.caches.modify cache f }

end Workspace

namespace WorkspaceM

def changeSchema (change : Schema → Except Failure Unit × Schema) : WorkspaceM Unit := do
  let (result, schema) := change (← get).schema
  modify ({ · with schema })
  liftExcept result

def typeNamed (name : String) : WorkspaceM TypeId := do liftExcept ((← get).schema.named name)

def typeKnown (id : TypeId) (asked : String) : WorkspaceM TypeId := do
  liftExcept ((← get).schema.known id asked)

/-- The erased type of a host type, which is listed if it is new. -/
def erasedOf (result : Option HostType) : WorkspaceM RuntimeType := do
  changeSchema fun s => (.ok (), result.elim s s.mentionErased)
  return HostType.erasedResult result

/-- The declared expression of a host type, whose types are listed if they are new. -/
def exprOf (result : Option HostType) : WorkspaceM TypeExpr := do
  changeSchema fun s => (.ok (), result.elim s s.mentionType)
  return HostType.exprResult result

end WorkspaceM
end Introspect
