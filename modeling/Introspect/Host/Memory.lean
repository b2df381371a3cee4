import Introspect.Table
import Introspect.Host.Value

/-! What host code reads and changes: the slots of each object, the shared slots of static members,
the globals behind static fields, and the upcasts made so far. -/
namespace Introspect

/-- Objects are numbered in the order in which they are made. -/
abbrev ObjectRef := Nat

/-- The variable behind a static field. If it is a sequence, there is room for so many items. -/
structure Global where
  value : Value
  room : Nat := 0

structure Memory where
  objects : List (Table String Value) := []
  statics : Table String Value := ∅
  globals : List Global := []
  upcasts : List String := []

/-- Host code. What it did before it failed stays done. -/
abbrev HostM := ExceptT Failure (StateM Memory)

/-- How host code ends, and the memory that it leaves. -/
def HostM.exec {α : Type} (code : HostM α) (m : Memory) : Except Failure α × Memory := code.run.run m

namespace Global

/-- The room of a sequence that was built item by item. It doubles whenever the sequence is full. -/
def roomOfLength : Nat → Nat
  | 0 => 0
  | n + 1 =>
    let room := roomOfLength n
    if n < room then room else max 1 (2 * room)

def ofValue (v : Value) : Global := { value := v, room := roomOfLength v.items.length }

/-- What a failed assignment leaves behind. Where there is room for all the new items, they replace the
old ones one by one, up to the first that fails. Otherwise new room is filled first, and the old items
stay. -/
def interrupted (g : Global) (v : Value) : Global :=
  match g.value, v with
  | .sequence shape element old, .sequence _ _ new =>
    if new.length ≤ g.room then
      let replaced := (new.take old.length).takeWhile (·.copyFailure?.isNone)
      { g with value := .sequence shape element (replaced ++ old.drop replaced.length) }
    else g
  | _, _ => g

/-- Assigns a value, and tells how that failed if it did. -/
def assign (g : Global) (v : Value) : Option Failure × Global :=
  match v.assignFailure? with
  | some f => (some f, g.interrupted v)
  | none => (none, { value := v.content, room := max g.room v.items.length })

end Global

namespace Memory

/-- A missing object stands for the shared slots. -/
def slots (m : Memory) : Option ObjectRef → Table String Value
  | none => m.statics
  | some i => m.objects.getD i ∅

/-- A slot that was never stored to holds the empty value. -/
def load (m : Memory) (self : Option ObjectRef) (key : String) : Value :=
  ((m.slots self).get? key).getD .empty

def store (m : Memory) (self : Option ObjectRef) (key : String) (v : Value) : Memory :=
  match self with
  | none => { m with statics := m.statics.insert key v }
  | some i => { m with objects := m.objects.modify i (·.insert key v) }

def global (m : Memory) (index : Nat) : Global := m.globals.getD index { value := .empty }

def assignGlobal (m : Memory) (index : Nat) (v : Value) : Option Failure × Memory :=
  let (failure, g) := (m.global index).assign v
  (failure, { m with globals := m.globals.set index g })

def allocate (m : Memory) : ObjectRef × Memory :=
  (m.objects.length, { m with objects := m.objects ++ [∅] })

def declareGlobal (m : Memory) (v : Value) : Nat × Memory :=
  (m.globals.length, { m with globals := m.globals ++ [.ofValue v] })

/-- Makes the upcasts of a path in order. A step without upcast does nothing. -/
def upcast (m : Memory) (path : List (Option String)) : Memory :=
  { m with upcasts := m.upcasts ++ path.filterMap id }

end Memory
end Introspect
