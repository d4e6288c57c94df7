import BoardPython.Ir.Code
import BoardPython.Lowering.ValueType

/-! Lowered values: an operand and the value type it stands for. -/
namespace BoardPython.Lowering

open Ir (Operand Ty)

/-- A lowered value. There is nothing to a void one but its type. -/
inductive Value where
  | i8 (x : Operand)
  | i16 (x : Operand)
  | f32 (x : Operand)
  | str (x : Operand)
  | bool (x : Operand)
  | void
  deriving DecidableEq, Repr

namespace Value

def type : Value → ValueType
  | i8 _ => .i8
  | i16 _ => .i16
  | f32 _ => .f32
  | str _ => .str
  | bool _ => .bool
  | void => .void

def operand? : Value → Option Operand
  | i8 x | i16 x | f32 x | str x | bool x => some x
  | void => none

def ofOperand (t : ValueType) (x : Operand) : Value :=
  match t with
  | .i8 => i8 x
  | .i16 => i16 x
  | .f32 => f32 x
  | .str => str x
  | .bool => bool x
  | .void => void
  | .other _ => void

inductive Mismatch where
  | voidOperand (type : Ty)
  | noOperand (expected : ValueType)
  | operandType (expected : ValueType) (type : Ty)
  | unknownType (expected : ValueType)
  deriving DecidableEq, Repr

def Mismatch.message : Mismatch → String
  | voidOperand type => s!"void value with {type.text} handle"
  | noOperand expected => s!"missing handle for {expected.name} value"
  | operandType expected type => s!"{expected.name} value with {type.text} handle"
  | unknownType expected => s!"unknown value type {expected.name}"

/-- A value of type `t` from an operand, whose type must be that of the representation of `t`. -/
def wrap (t : ValueType) (x : Option Operand) : Except Mismatch Value :=
  match t, x with
  | .void, none => .ok void
  | .void, some x => if x.type = .void then .ok void else .error (.voidOperand x.type)
  | t, none => .error (.noOperand t)
  | t, some x =>
    if x.type ≠ t.ir then .error (.operandType t x.type)
    else match t with
      | .other _ => .error (.unknownType t)
      | _ => .ok (ofOperand t x)

end Value

end BoardPython.Lowering
