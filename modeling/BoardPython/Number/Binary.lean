/-! Binary floating point values and their formats, in exact integer arithmetic. A ratio is rounded
to the nearest value of a format, a tie goes to the even mantissa. -/
namespace BoardPython.Number

/-- A binary format: the bits of a mantissa, and the least and the greatest exponent of its last
bit. -/
structure Format where
  precision : Nat
  least : Int
  greatest : Int

namespace Format

def single : Format := ⟨24, -149, 104⟩

def double : Format := ⟨53, -1074, 971⟩

end Format

/-- A floating point value. A finite one is `mantissa * 2 ^ exponent`, negated if `negative`. -/
inductive Binary where
  | finite (negative : Bool) (mantissa : Nat) (exponent : Int)
  | infinite (negative : Bool)
  | nan
  deriving DecidableEq, Repr, Inhabited

/-- `numerator / denominator` to the nearest integer, a tie to the even one. -/
def divideToEven (numerator denominator : Nat) : Nat :=
  let q := numerator / denominator
  let r := numerator % denominator
  if 2 * r < denominator then q
  else if denominator < 2 * r then q + 1
  else q + q % 2

namespace Binary

/-- The larger `k` with `2 ^ k ≤ numerator / denominator`; both are positive. -/
def floorLog (numerator denominator : Nat) : Int :=
  let k : Int := (Nat.log2 numerator : Int) - (Nat.log2 denominator : Int)
  if denominator * Nat.pow 2 k.toNat ≤ numerator * Nat.pow 2 (-k).toNat then k else k - 1

def ofRatio (f : Format) (negative : Bool) (numerator denominator : Nat) : Binary :=
  if numerator = 0 then finite negative 0 f.least
  else
    let exponent := max f.least (floorLog numerator denominator - (f.precision - 1))
    let mantissa :=
      divideToEven (numerator * Nat.pow 2 (-exponent).toNat)
        (denominator * Nat.pow 2 exponent.toNat)
    let (mantissa, exponent) :=
      if mantissa = Nat.pow 2 f.precision then (Nat.pow 2 (f.precision - 1), exponent + 1)
      else (mantissa, exponent)
    if f.greatest < exponent then infinite negative else finite negative mantissa exponent

def round (f : Format) : Binary → Binary
  | finite negative mantissa exponent =>
    ofRatio f negative (mantissa * Nat.pow 2 exponent.toNat) (Nat.pow 2 (-exponent).toNat)
  | x => x

def negate : Binary → Binary
  | finite negative mantissa exponent => finite (!negative) mantissa exponent
  | infinite negative => infinite (!negative)
  | nan => nan

/-- The leading bit of a mantissa in the double format, which patterns leave out. -/
def leadingBit : Nat := 0x10000000000000

def signBit (negative : Bool) : Nat := if negative then 0x8000000000000000 else 0

def bits : Binary → Nat
  | finite negative mantissa exponent =>
    if mantissa < leadingBit then signBit negative + mantissa
    else
      signBit negative + (exponent + 1075).toNat * leadingBit + (mantissa - leadingBit)
  | infinite negative => signBit negative + 0x7FF * leadingBit
  | nan => 0x7FF8000000000001

end Binary

end BoardPython.Number
