import BoardPython.Number.Binary

/-! Decimal numbers `digits * 10 ^ exponent`, and the shortest one that a floating point value can
be told by. -/
namespace BoardPython.Number

structure Decimal where
  digits : Nat
  exponent : Int
  deriving DecidableEq, Repr

namespace Decimal

def width (n : Nat) : Nat := (Nat.toDigits 10 n).length

def numerator (d : Decimal) : Nat := d.digits * Nat.pow 10 d.exponent.toNat

def denominator (d : Decimal) : Nat := Nat.pow 10 (-d.exponent).toNat

/-- The value of format `f` nearest to a decimal. Exponents far outside the format are settled
without writing the power of ten out. -/
def toBinary (f : Format) (negative : Bool) (d : Decimal) : Binary :=
  if d.digits = 0 then .ofRatio f negative 0 1
  else if 400 < d.exponent + width d.digits then .infinite negative
  else if d.exponent + width d.digits < -400 then .ofRatio f negative 0 1
  else .ofRatio f negative d.numerator d.denominator

/-- The interval of numbers that round to a value, as ratios over a common denominator; its ends
belong to it if `closed`. -/
structure Interval where
  low : Nat
  value : Nat
  high : Nat
  denominator : Nat
  closed : Bool

/-- The numbers that round to `mantissa * 2 ^ exponent` in format `f`. Below a power of two the
values are twice as dense, so the interval reaches only half as far there. -/
def interval (f : Format) (mantissa : Nat) (exponent : Int) : Interval :=
  let e := exponent - 2
  let scale (quarters : Nat) : Nat := quarters * Nat.pow 2 e.toNat
  let below := if mantissa = Nat.pow 2 (f.precision - 1) ∧ f.least < exponent then 1 else 2
  ⟨scale (4 * mantissa - below), scale (4 * mantissa), scale (4 * mantissa + 2),
    Nat.pow 2 (-e).toNat, mantissa % 2 = 0⟩

namespace Interval

def has (i : Interval) (d : Decimal) : Bool :=
  let x := d.numerator * i.denominator
  let low := i.low * d.denominator
  let high := i.high * d.denominator
  if i.closed then low ≤ x && x ≤ high else low < x && x < high

/-- The decimals with the given exponent next to the value, the one below or equal first. -/
def neighbours (i : Interval) (exponent : Int) : Decimal × Decimal :=
  let q := i.value * Nat.pow 10 (-exponent).toNat / (i.denominator * Nat.pow 10 exponent.toNat)
  (⟨q, exponent⟩, ⟨q + 1, exponent⟩)

/-- Whether the first decimal is at least as near to the value as the second, which lies above
it. -/
def nearer (i : Interval) (d d' : Decimal) : Bool :=
  i.value * d.denominator * 2 ≤ (d.numerator + d'.numerator) * i.denominator

def pick? (i : Interval) (exponent : Int) : Option Decimal :=
  let (d, d') := i.neighbours exponent
  if i.has d && (!i.has d' || i.nearer d d') then some d
  else if i.has d' then some d'
  else none

def search (i : Interval) (exponent : Int) : Nat → Option Decimal
  | 0 => none
  | n + 1 =>
    match i.pick? exponent with
    | some d => some d
    | none => i.search (exponent - 1) n

end Interval

/-- The decimal with the fewest digits that rounds to `mantissa * 2 ^ exponent` in format `f`, the
nearest one of them. -/
def shortest (f : Format) (mantissa : Nat) (exponent : Int) : Option Decimal :=
  let i := interval f mantissa exponent
  let top : Int := (width (i.high / i.denominator) : Int)
  i.search top 400

def isExact (d : Decimal) (mantissa : Nat) (exponent : Int) : Bool :=
  d.numerator * Nat.pow 2 (-exponent).toNat ==
    mantissa * Nat.pow 2 exponent.toNat * d.denominator

/-- Digits without trailing zeros. The fuel is the number of digits. -/
def stripZeros : Nat → Decimal → Decimal
  | 0, d => d
  | n + 1, d =>
    if d.digits ≠ 0 ∧ d.digits % 10 = 0 then stripZeros n ⟨d.digits / 10, d.exponent + 1⟩ else d

/-- The decimal with the least number of digits that is equal to `d`. -/
def normalize (d : Decimal) : Decimal := stripZeros (width d.digits) d

end Decimal

end BoardPython.Number
