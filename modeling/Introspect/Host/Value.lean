import Introspect.Host.HostType
import Introspect.Host.Significant

/-! Values of a host program. A value knows its own type, and no value is converted to another. -/
namespace Introspect

/-- Numbers of the two floating types are whole. An `object` holds any value, the empty one too. -/
inductive Value
  | empty
  | bool (b : Bool)
  | char (c : Char)
  | int (n : Int32)
  | long (n : Int64)
  | float (n : Int)
  | double (n : Int)
  | string (s : String)
  | object (content : Value)
  | enumeration (name : String) (n : Int32)
  | record (type : RecordType) (payload : String)
  | sequence (shape : Sequence) (element : HostType) (items : List Value)
  deriving Repr, Inhabited

namespace Value

def type? : Value → Option HostType
  | empty => none
  | bool _ => some .bool
  | char _ => some .char
  | int _ => some .int
  | long _ => some .long
  | float _ => some .float
  | double _ => some .double
  | string _ => some .string
  | object _ => some .object
  | enumeration name _ => some (.enumeration name)
  | record type _ => some (.record type)
  | sequence shape element _ => some (.sequence shape element)

/-- What a receiver of type `object` gets; every other value is received as it is. -/
def content : Value → Value
  | object content => content
  | v => v

def items : Value → List Value
  | sequence _ _ items => items
  | _ => []

mutual

/-- A copy takes in all that the value holds, and fails at the first part that cannot be copied. -/
def copyFailure? : Value → Option Failure
  | object content => content.copyFailure?
  | record type _ => type.onCopy
  | sequence _ _ items => firstCopyFailure? items
  | _ => none

def firstCopyFailure? : List Value → Option Failure
  | [] => none
  | v :: vs => v.copyFailure?.or (firstCopyFailure? vs)

end

/-- Only a record has an assignment of its own. To assign any other value is to copy what it holds. -/
def assignFailure? : Value → Option Failure
  | record type _ => type.onAssign
  | v => v.copyFailure?

def copy (v : Value) : Except Failure Value := do
  v.copyFailure?.forM .error
  return v

end Value

namespace HostType

/-- The value a body answers with when it has none of its own. An `object` starts out empty. -/
def zero : HostType → Value
  | bool => .bool false
  | char => .char (Char.ofNat 0)
  | int => .int 0
  | long => .long 0
  | float => .float 0
  | double => .double 0
  | string => .string ""
  | object => .empty
  | enumeration name => .enumeration name 0
  | record type => .record type ""
  | sequence shape element => .sequence shape element []

/-- The value that a constant of the type holds. -/
def constant : HostType → Value
  | bool => .bool true
  | int => .int 7
  | long => .long 8
  | double => .double 2
  | string => .string "const"
  | type => type.zero

/-- A number as a value of a numeric type, cut to its width or precision. -/
def ofInt? : HostType → Int → Option Value
  | int, n => some (.int (.ofInt n))
  | long, n => some (.long (.ofInt n))
  | float, n => some (.float (Significant.nearest 24 n))
  | double, n => some (.double (Significant.nearest 53 n))
  | enumeration name, n => some (.enumeration name (.ofInt n))
  | _, _ => none

/-- The value itself if it may stand for the type, and the zero value otherwise. -/
def conform (t : HostType) (v : Value) : Value :=
  if t = .object ∨ v.type? = some t then v else t.zero

/-- Only a value of exactly this type is accepted. -/
def check (t : HostType) (v : Value) : Except Failure Unit :=
  if v.type? = some t then .ok () else .error .badCast

/-- Stores a value by assigning it. The type is looked at first. -/
def assign (t : HostType) (v : Value) : Except Failure Value := do
  t.check v
  v.assignFailure?.forM .error
  return v.content

end HostType
end Introspect
