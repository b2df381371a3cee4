/-! Identities of types. A type keeps its identity when its name changes. -/
namespace Introspect

inductive BuiltIn
  | void
  | bool
  | char
  | int
  | long
  | float
  | double
  | object
  | string
  | list
  deriving DecidableEq, Repr

namespace BuiltIn

def name : BuiltIn → String
  | void => "void"
  | bool => "bool"
  | char => "char"
  | int => "int"
  | long => "long"
  | float => "float"
  | double => "double"
  | object => "object"
  | string => "string"
  | list => "list"

def all : List BuiltIn := [void, bool, char, int, long, float, double, object, string, list]

end BuiltIn

/-- Enumerations, value records and described classes are told apart even when their names agree,
and a tag tells apart two described classes of one name. -/
inductive TypeId
  | builtIn (type : BuiltIn)
  | enumeration (name : String)
  | record (name : String)
  | described (name : String) (tag : Nat)
  deriving DecidableEq, Repr

namespace TypeId

def object : TypeId := builtIn .object

/-- The name a type has until it is given another. -/
def defaultName : TypeId → String
  | builtIn type => type.name
  | enumeration name => name
  | record name => name
  | described name _ => name

end TypeId

end Introspect
