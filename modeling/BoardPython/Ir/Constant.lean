import BoardPython.Ir.Type
import BoardPython.Number.Decimal
import BoardPython.Text.Escaped

/-! Constants of the intermediate representation and how they are written. -/
namespace BoardPython.Ir

open Number (Binary Decimal)

inductive Constant where
  | int (bits : Nat) (value : Int)
  | bool (value : Bool)
  | float (value : Binary)
  | null (target : Ty)
  | bytes (value : Bytes)
  deriving DecidableEq, Repr

namespace Constant

def type : Constant → Ty
  | int bits _ => .int bits
  | bool _ => .i1
  | float _ => .float
  | null target => .pointer target
  | bytes value => .array value.length .i8

def variety (digits : List Char) : Nat := digits.eraseDups.length

/-- Whether a number is easier to read in hexadecimal: half of its hexadecimal digits at most are
different ones, and the share of different digits is higher by a fifth at least in decimal. -/
def readsBetterInHex (n : Nat) : Bool :=
  let hex := Nat.toDigits 16 n
  let dec := Nat.toDigits 10 n
  100 * variety hex ≤ 51 * hex.length &&
    10 * (variety hex * dec.length) + 2 * (hex.length * dec.length)
      ≤ 10 * (variety dec * hex.length)

def upperHex (n : Nat) : String := String.ofList ((Nat.toDigits 16 n).map Char.toUpper)

/-- An integer: decimal, or hexadecimal where that reads better and the number is not small. -/
def intText (value : Int) : String :=
  if 4096 ≤ value && readsBetterInHex value.toNat then "u0x" ++ upperHex value.toNat
  else toString value

structure FractionLayout where
  /-- The least decimal exponent written without an exponent part. -/
  leastPlain : Int
  /-- The least larger one written with an exponent part again. -/
  leastScientific : Int
  exponentDigits : Nat

/-- Fractions from a ten-thousandth up to, but not including, a million have no exponent part. -/
def fractionLayout : FractionLayout := ⟨-4, 6, 2⟩

def padded (width n : Nat) : List Char :=
  let digits := Nat.toDigits 10 n
  List.replicate (width - digits.length) '0' ++ digits

/-- Digits without an exponent part; the point stands after the first `point` digits, and zeros
fill the gap if it stands outside of them. At least one digit follows the point. -/
def plainDigits (digits : List Char) (point : Int) : List Char :=
  if point ≤ 0 then
    '0' :: '.' :: List.replicate (-point).toNat '0' ++ digits
  else
    let whole := digits.take point.toNat
    let fraction := digits.drop point.toNat
    whole ++ List.replicate (point.toNat - digits.length) '0' ++ '.' ::
      (if fraction.isEmpty then ['0'] else fraction)

/-- Digits with the point after the first one, and an exponent part. -/
def scientificDigits (layout : FractionLayout) (digits : List Char) (exponent : Int) : List Char :=
  let fraction := digits.drop 1
  digits.take 1 ++ '.' :: (if fraction.isEmpty then ['0'] else fraction) ++
    'e' :: (if exponent < 0 then '-' else '+') :: padded layout.exponentDigits exponent.natAbs

def decimalText (layout : FractionLayout) (d : Decimal) : List Char :=
  let d := d.normalize
  let digits := Nat.toDigits 10 d.digits
  let point := d.exponent + digits.length
  let exponent := point - 1
  if d.digits = 0 then ['0', '.', '0']
  else if exponent < layout.leastPlain || layout.leastScientific ≤ exponent then
    scientificDigits layout digits exponent
  else plainDigits digits point

def patternText (x : Binary) : String := "0x" ++ upperHex (x.round .double).bits

/-- A value of single precision: the shortest decimal that tells it from its neighbours if that is
exactly the value, its bit pattern as a double otherwise. -/
def floatText (x : Binary) : String :=
  match x with
  | .finite negative mantissa exponent =>
    if mantissa = 0 then (if negative then "-0.0" else "0.0")
    else match Decimal.shortest .single mantissa exponent with
      | some d =>
        if d.isExact mantissa exponent then
          String.ofList ((if negative then ['-'] else []) ++ decimalText fractionLayout d)
        else patternText x
      | none => patternText x
  | _ => patternText x

def text : Constant → String
  | int _ value => intText value
  | bool value => if value then "true" else "false"
  | float value => floatText value
  | null _ => "null"
  | bytes value => "c\"" ++ Text.escape value ++ "\""

end Constant

end BoardPython.Ir
