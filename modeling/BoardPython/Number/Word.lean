import BoardPython.Number.Numeral

/-! Reading integers of 64 bits. -/
namespace BoardPython.Number

open Bytes (ascii)

inductive WordFault where
  | malformed
  | outOfRange
  deriving DecidableEq, Repr

def WordFault.message : WordFault → String
  | malformed => "parse error"
  | outOfRange => "value out of range"

/-- The first natural number of more than 64 bits. -/
def wordLimit : Nat := 0x10000000000000000

/-- The first positive number of more than 63 bits. -/
def signLimit : Nat := 0x8000000000000000

/-- Digits of a base after those already worth `n`, with underscores anywhere. It fails at the first
character that is no digit or makes the number too large. -/
def readWordDigits (base : Nat) : Nat → Bytes → Except WordFault Nat
  | n, [] => .ok n
  | n, b :: rest =>
    if b == ascii '_' then readWordDigits base n rest
    else match Bytes.digitValue? b with
      | none => .error .malformed
      | some d =>
        if base ≤ d then .error .malformed
        else if wordLimit ≤ n * base + d then .error .outOfRange
        else readWordDigits base (n * base + d) rest

/-- The base of a number and its digits: a base letter after a zero tells, and a zero alone means
base eight. A letter that nothing follows is no base letter. -/
def splitBase : Bytes → Nat × Bytes
  | zero :: letter :: b :: rest =>
    if zero == ascii '0' then
      match baseOf? letter with
      | some base => (base, b :: rest)
      | none => (8, letter :: b :: rest)
    else (10, zero :: letter :: b :: rest)
  | zero :: rest => if zero == ascii '0' then (8, rest) else (10, zero :: rest)
  | [] => (10, [])

def readWord (text : Bytes) : Except WordFault Nat := do
  if text.isEmpty then throw .malformed
  let (base, digits) := splitBase text
  let n ← readWordDigits base 0 digits
  -- A base letter counts as a digit for the underscore after it.
  let tidy :=
    if digits.length + 2 = text.length then underscoresBetween true digits
    else underscoresBetween false text
  if tidy || !text.contains (ascii '_') then return n else throw .malformed

def readInt64 (text : Bytes) : Except WordFault Int := do
  let (negative, digits) := splitSign text
  let n ← readWord digits
  if negative then
    if signLimit < n then throw .outOfRange else return -(n : Int)
  else
    if signLimit ≤ n then throw .outOfRange else return n

end BoardPython.Number
