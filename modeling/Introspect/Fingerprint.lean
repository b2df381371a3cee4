/-! The 64 bit FNV-1a fingerprint of a byte string. Bytes count as signed, so a byte of 128 or more
sets the upper bits of the word it is mixed into. -/
namespace Introspect.Fingerprint

def offsetBasis : UInt64 := 14695981039346656037

def prime : UInt64 := 1099511628211

def signExtend (b : UInt8) : UInt64 := b.toInt8.toInt64.toUInt64

def step (h : UInt64) (b : UInt8) : UInt64 := (h ^^^ signExtend b) * prime

def ofBytes (bytes : List UInt8) : UInt64 := bytes.foldl step offsetBasis

def ofString (s : String) : UInt64 := ofBytes s.toUTF8.toList

theorem ofBytes_append (a b : List UInt8) : ofBytes (a ++ b) = b.foldl step (ofBytes a) := by
  simp [ofBytes]

end Introspect.Fingerprint
