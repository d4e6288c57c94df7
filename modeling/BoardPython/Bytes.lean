/-! Raw text. Source files, token values and string literals are byte sequences that need not be
valid UTF-8, so they are lists of bytes; names and messages are `String`s. -/
namespace BoardPython

abbrev Bytes := List UInt8

namespace Bytes

def ofString (s : String) : Bytes := s.toUTF8.data.toList

abbrev ascii (c : Char) : UInt8 := c.toUInt8

def isDigit (b : UInt8) : Bool := ascii '0' ≤ b && b ≤ ascii '9'

/-- ASCII digits and the letters `a` to `f` in either case. -/
def isHexDigit (b : UInt8) : Bool :=
  isDigit b || (ascii 'a' ≤ b && b ≤ ascii 'f') || (ascii 'A' ≤ b && b ≤ ascii 'F')

/-- The value of an alphanumeric ASCII digit: `a` and `A` stand for ten, and so on up to `z`. -/
def digitValue? (b : UInt8) : Option Nat :=
  if isDigit b then some (b.toNat - 48)
  else if ascii 'a' ≤ b && b ≤ ascii 'z' then some (b.toNat - 87)
  else if ascii 'A' ≤ b && b ≤ ascii 'Z' then some (b.toNat - 55)
  else none

/-- The ASCII letters `A` to `Z` become lower case, all other bytes stay. -/
def toLower (b : UInt8) : UInt8 := if ascii 'A' ≤ b && b ≤ ascii 'Z' then b + 32 else b

def upperHexDigit (n : Nat) : Char := Char.ofNat (if n < 10 then 48 + n else 55 + n)

def lowerHexDigit (n : Nat) : Char := Char.ofNat (if n < 10 then 48 + n else 87 + n)

def startsWith (t s : Bytes) : Bool := s.isPrefixOf t

end Bytes

end BoardPython
