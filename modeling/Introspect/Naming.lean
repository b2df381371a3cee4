/-! Accessor names and the property names they denote, in characters and in bytes. Letter case is ASCII case:
every other character and every other byte is left as it is. -/
namespace Introspect.Naming

/-- The rest of a name after a fixed beginning. -/
def after? (start name : String) : Option (List Char) := start.toList.isPrefixOf? name.toList

/-- A leading letter is lowered unless an upper case letter follows it, so that acronyms survive. -/
def decapitalize : List Char → List Char
  | [] => []
  | [c] => [c.toLower]
  | c :: d :: rest => if d.isUpper then c :: d :: rest else c.toLower :: d :: rest

/-- The property of an accessor. `is` is tried first, then `get` and `set`. -/
def propertyOf? (name : String) : Option String :=
  (after? "is" name <|> after? "get" name <|> after? "set" name).map
    fun rest => String.ofList (decapitalize rest)

/-- A bare beginning is no accessor name. -/
def hasMoreThan (start name : String) : Bool := (after? start name).any (· ≠ [])

/-- A getter that asks a yes-or-no question. -/
def isPredicate (name : String) : Bool := hasMoreThan "is" name

def isGetter (name : String) : Bool := hasMoreThan "get" name || isPredicate name

def isSetter (name : String) : Bool := hasMoreThan "set" name

def isAccessor (name : String) : Bool := isGetter name || isSetter name

/-- Only a name that begins like an accessor denotes a property. -/
theorem propertyOf?_isSome_of_isAccessor {name : String} (h : isAccessor name) :
    (propertyOf? name).isSome := by
  have some_of_any {o : Option (List Char)} (h : o.any (· ≠ []) = true) : o.isSome := by
    cases o <;> simp_all
  simp only [isAccessor, isGetter, isSetter, isPredicate, hasMoreThan, Bool.or_eq_true] at h
  rcases h with (h | h) | h <;> simp [propertyOf?, some_of_any h]

/-- Names kept for internal use are no property names. -/
def isPropertyName (name : String) : Bool :=
  name.toList.head? ≠ some '$' && name ≠ "serialVersionUID" && name ≠ "class"

theorem isPropertyName_iff (name : String) :
    isPropertyName name ↔
      name.toList.head? ≠ some '$' ∧ name ≠ "serialVersionUID" ∧ name ≠ "class" := by
  simp [isPropertyName, and_assoc]

/-- Two names that differ in letter case alone have one folded form. -/
def fold (name : String) : String := String.ofList (name.toList.map Char.toUpper)

def utf8 (name : String) : List UInt8 := name.toUTF8.data.toList

/-- The upper case form of an ASCII letter. -/
def upperByte (b : UInt8) : UInt8 := if 97 ≤ b ∧ b ≤ 122 then b - 32 else b

def upper (bytes : List UInt8) : List UInt8 := bytes.map upperByte

/-- The ASCII upper case letters. -/
def isUpperByte (b : UInt8) : Bool := 65 ≤ b && b ≤ 90

/-- The lower case form of an ASCII letter. -/
def lowerByte (b : UInt8) : UInt8 := if isUpperByte b then b + 32 else b

/-- The first byte is lowered unless an upper case letter follows it. -/
def decapitalizeBytes : List UInt8 → List UInt8
  | [] => []
  | [b] => [lowerByte b]
  | b :: c :: rest => if isUpperByte c then b :: c :: rest else lowerByte b :: c :: rest

/-- The property of an accessor name, in bytes. -/
def propertyOfBytes? (name : List UInt8) : Option (List UInt8) :=
  ((utf8 "is").isPrefixOf? name <|> (utf8 "get").isPrefixOf? name <|> (utf8 "set").isPrefixOf? name).map
    decapitalizeBytes

end Introspect.Naming
