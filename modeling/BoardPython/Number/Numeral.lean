import BoardPython.Bytes
import BoardPython.Number.Decimal

/-! Reading numbers from the text of a number token. Underscores may be sprinkled over decimal
numbers; after a base letter they may only stand between digits. -/
namespace BoardPython.Number

open Bytes (ascii)

inductive Numeral where
  | int (value : Int)
  | float (value : Binary)
  | imaginary (value : Binary)
  deriving DecidableEq, Repr

/-- Digits of base `base`, most significant first, after those already worth `value`. -/
def readDigits (base : Nat) (value : Nat) : Bytes → Option Nat
  | [] => some value
  | b :: rest =>
    match Bytes.digitValue? b with
    | some d => if d < base then readDigits base (value * base + d) rest else none
    | none => none

def readNatural (base : Nat) (text : Bytes) : Option Nat :=
  if text.isEmpty then none else readDigits base 0 text

def splitSign : Bytes → Bool × Bytes
  | b :: rest =>
    if b == ascii '+' then (false, rest)
    else if b == ascii '-' then (true, rest)
    else (false, b :: rest)
  | [] => (false, [])

def readInteger (text : Bytes) : Option Int :=
  let (negative, digits) := splitSign text
  (readNatural 10 digits).map fun n => if negative then -(n : Int) else n

def baseOf? (letter : UInt8) : Option Nat :=
  let l := Bytes.toLower letter
  if l == ascii 'x' then some 16
  else if l == ascii 'o' then some 8
  else if l == ascii 'b' then some 2
  else none

/-- Whether every underscore stands between two digits; `afterDigit` tells what stands in front. -/
def underscoresBetween : (afterDigit : Bool) → Bytes → Bool
  | afterDigit, [] => afterDigit
  | afterDigit, b :: rest =>
    if b == ascii '_' then afterDigit && underscoresBetween false rest
    else underscoresBetween true rest

def withoutUnderscores (text : Bytes) : Bytes := text.filter (· != ascii '_')

/-- A natural number after a leading zero and a base letter. The letter counts as a digit for the
underscore after it. -/
def readPrefixed : Bytes → Option Nat
  | zero :: letter :: digits =>
    match baseOf? letter with
    | some base =>
      if zero == ascii '0' && underscoresBetween true digits then
        readNatural base (withoutUnderscores digits)
      else none
    | none => none
  | _ => none

/-- Whether a text without underscores starts with a zero and a base letter. -/
def isPrefixed : Bytes → Bool
  | zero :: letter :: _ => zero == ascii '0' && (baseOf? letter).isSome
  | _ => false

/-- The digits in front of and behind a point, and what follows them. -/
structure Mantissa where
  whole : Bytes
  fraction : Bytes
  rest : Bytes

def splitMantissa (digit : UInt8 → Bool) (text : Bytes) : Mantissa :=
  let whole := text.takeWhile digit
  match text.dropWhile digit with
  | b :: rest =>
    if b == ascii '.' then ⟨whole, rest.takeWhile digit, rest.dropWhile digit⟩
    else ⟨whole, [], b :: rest⟩
  | [] => ⟨whole, [], []⟩

/-- From here on further digits of an exponent are not counted. -/
def exponentLimit : Nat := 10000

def readScale (value : Nat) : Bytes → Option Nat
  | [] => some value
  | b :: rest =>
    match readNatural 10 [b] with
    | some d => readScale (if value < exponentLimit then value * 10 + d else value) rest
    | none => none

/-- An exponent with its mark and an optional sign, or nothing where it may be left out. -/
def readExponent (mark : Char) (optional : Bool) : Bytes → Option Int
  | [] => if optional then some 0 else none
  | b :: rest =>
    let (negative, digits) := splitSign rest
    if Bytes.toLower b == ascii mark && !digits.isEmpty then
      (readScale 0 digits).map fun n => if negative then -(n : Int) else n
    else none

/-- What follows the hexadecimal mark `0x`, if that is not nothing. -/
def hexadecimal? : Bytes → Option Bytes
  | zero :: letter :: b :: rest =>
    if zero == ascii '0' && Bytes.toLower letter == ascii 'x' then some (b :: rest) else none
  | _ => none

/-- `digits * 2 ^ exponent`, settled without writing the power out if it is far too large or too
small. -/
def scaleByTwo (negative : Bool) (digits : Nat) (exponent : Int) : Binary :=
  let top := exponent + (Nat.log2 digits : Int)
  if digits = 0 || top < -1200 then .ofRatio .double negative 0 1
  else if 1200 < top then .infinite negative
  else .round .double (.finite negative digits exponent)

/-- A number in base ten with an optional exponent, or a number in base sixteen with an exponent
that counts powers of two. -/
def readFraction (negative : Bool) (text : Bytes) : Option Binary :=
  match hexadecimal? text with
  | some body =>
    let m := splitMantissa Bytes.isHexDigit body
    match readNatural 16 (m.whole ++ m.fraction), readExponent 'p' false m.rest with
    | some digits, some exponent =>
      some (scaleByTwo negative digits (exponent - 4 * m.fraction.length))
    | _, _ => none
  | none =>
    let m := splitMantissa Bytes.isDigit text
    match readNatural 10 (m.whole ++ m.fraction), readExponent 'e' true m.rest with
    | some digits, some exponent =>
      some (Decimal.toBinary .double negative ⟨digits, exponent - m.fraction.length⟩)
    | _, _ => none

/-- A floating point number: a fraction with an optional sign, or the words for infinity and for no
number in any case of letters. -/
def readFloat (text : Bytes) : Option Binary :=
  let (negative, rest) := splitSign text
  let lower := rest.map Bytes.toLower
  if lower == Bytes.ofString "inf" || lower == Bytes.ofString "infinity" then
    some (.infinite negative)
  else if text.map Bytes.toLower == Bytes.ofString "nan" then some .nan
  else readFraction negative rest

inductive NumeralFault where
  | integer
  | float
  deriving DecidableEq, Repr

/-- The value of a number token: imaginary if it ends in `j`, a float if it has a point or an
exponent mark, an integer otherwise. A base letter makes it an integer in any case. -/
def Numeral.read (text : Bytes) : Except NumeralFault Numeral :=
  let clean := withoutUnderscores text
  let lower := clean.map Bytes.toLower
  if isPrefixed clean then
    match readPrefixed text with
    | some n => .ok (.int n)
    | none => .error .integer
  else if lower.getLast? == some (ascii 'j') then
    match readFloat clean.dropLast with
    | some x => .ok (.imaginary x)
    | none => .error .float
  else if lower.contains (ascii '.') || lower.contains (ascii 'e') then
    match readFloat clean with
    | some x => .ok (.float x)
    | none => .error .float
  else
    match readInteger clean with
    | some n => .ok (.int n)
    | none => .error .integer

end BoardPython.Number
