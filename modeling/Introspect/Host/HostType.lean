import Introspect.Failure
import Introspect.Types.TypeExpr

/-! The value types of a host program and the types they denote. -/
namespace Introspect

/-- Arrays are types of their own. Lists and deques are both seen as lists. -/
inductive Sequence
  | array
  | list
  | deque
  deriving DecidableEq, Repr

/-- A value class of the host. Copying or assigning one of its values may fail. -/
structure RecordType where
  name : String
  onCopy : Option Failure := none
  onAssign : Option Failure := none
  deriving DecidableEq, Repr

namespace RecordType

/-- A plain text in a class of its own. -/
def ref : RecordType := { name := "Ref" }

/-- Can be made and returned, but neither copied nor assigned. -/
def fuse : RecordType where
  name := "Fuse"
  onCopy := some (.runtime "copy blown")
  onAssign := some (.runtime "assign blown")

/-- Like `fuse`, but what is thrown are bare numbers. -/
def fuseInt : RecordType where
  name := "FuseInt"
  onCopy := some (.number 7)
  onAssign := some (.number 8)

end RecordType

inductive HostType
  | bool
  | char
  | int
  | long
  | float
  | double
  | string
  | object
  | enumeration (name : String)
  | record (type : RecordType)
  | sequence (shape : Sequence) (element : HostType)
  deriving DecidableEq, Repr

namespace HostType

def name : HostType → String
  | bool => "bool"
  | char => "char"
  | int => "int"
  | long => "long"
  | float => "float"
  | double => "double"
  | string => "string"
  | object => "object"
  | enumeration name => name
  | record type => type.name
  | sequence .array element => element.name ++ "[]"
  | sequence .list element => "list<" ++ element.name ++ ">"
  | sequence .deque element => "deque<" ++ element.name ++ ">"

/-- The value types that can be asked for by name. -/
def catalogue : List HostType :=
  [bool, char, int, long, float, double, object, string, sequence .array string, sequence .array int,
    sequence .array (sequence .array int), sequence .array object, sequence .list int,
    sequence .list string, sequence .deque string, enumeration "Color", record .ref, record .fuse,
    record .fuseInt]

/-- Fails for a name that is not in the catalogue. -/
def ofName? (name : String) : Option HostType := catalogue.find? (·.name = name)

/-- Arrays keep their element type, and every other sequence is a raw list. -/
def erased : HostType → RuntimeType
  | bool => .of (.builtIn .bool)
  | char => .of (.builtIn .char)
  | int => .of (.builtIn .int)
  | long => .of (.builtIn .long)
  | float => .of (.builtIn .float)
  | double => .of (.builtIn .double)
  | string => .of (.builtIn .string)
  | object => .object
  | enumeration name => .of (.enumeration name)
  | record type => .of (.record type.name)
  | sequence .array element => element.erased.array
  | sequence _ _ => .of (.builtIn .list)

/-- As a declared expression a list keeps its element type as an argument. -/
def expr : HostType → TypeExpr
  | sequence .array element => .array element.expr
  | sequence _ element => .applied (.of (.builtIn .list)) [element.expr]
  | type => .plain type.erased

/-- The types named in the declared expression. -/
def mentioned : HostType → List TypeId
  | sequence .array element => element.mentioned
  | sequence _ element => .builtIn .list :: element.mentioned
  | type => type.erased.element.toList

/-- The result type of a member; a member may have none. -/
def erasedResult : Option HostType → RuntimeType
  | some type => type.erased
  | none => .of (.builtIn .void)

def exprResult : Option HostType → TypeExpr
  | some type => type.expr
  | none => .plain (.of (.builtIn .void))

end HostType
end Introspect
