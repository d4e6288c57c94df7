import BoardPython.Lowering.Emit

/-! Operators on lowered values. -/
namespace BoardPython.Lowering

open Ir (Operand Ty)
open Token (Kind)

/-- How operators are lowered. Operands come in source order. -/
structure Operators where
  binary : Kind → Value → Value → Emit Value
  /-- A comparison chain, with one operand more than operators. -/
  compare : List Kind → List Value → Emit Value

inductive Numeric where
  | i8 | i16 | f32
  deriving DecidableEq, Repr

namespace Numeric

def type : Numeric → ValueType
  | i8 => .i8
  | i16 => .i16
  | f32 => .f32

def value : Numeric → Operand → Value
  | i8, x => .i8 x
  | i16, x => .i16 x
  | f32, x => .f32 x

end Numeric

def extend (x : Operand) : Emit Operand := Emit.emit (.convert .sext x .i16)

def toFloat (x : Operand) : Emit Operand := Emit.emit (.convert .sitofp x .float)

structure Promoted where
  type : Numeric
  left : Operand
  right : Operand

/-- Brings two numbers to a common type: the wider one of two integers, and float if one is a
float. Other values have none. -/
def promote (left right : Value) : Emit (Option Promoted) := do
  match left, right with
  | .i8 x, .i8 y => return some ⟨.i8, x, y⟩
  | .i16 x, .i16 y => return some ⟨.i16, x, y⟩
  | .f32 x, .f32 y => return some ⟨.f32, x, y⟩
  | .i8 x, .i16 y => return some ⟨.i16, ← extend x, y⟩
  | .i16 x, .i8 y => return some ⟨.i16, x, ← extend y⟩
  | .i8 x, .f32 y => return some ⟨.f32, ← toFloat x, y⟩
  | .i16 x, .f32 y => return some ⟨.f32, ← toFloat x, y⟩
  | .f32 x, .i8 y => return some ⟨.f32, x, ← toFloat y⟩
  | .f32 x, .i16 y => return some ⟨.f32, x, ← toFloat y⟩
  | _, _ => return none

namespace Numeric

def floatOp? : Kind → Option Ir.BinaryOp
  | .plus => some .fadd
  | .minus => some .fsub
  | .star => some .fmul
  | .slash => some .fdiv
  | .percent => some .frem
  | _ => none

/-- The operation for an operator on integers. Division goes toward zero. -/
def intOp? : Kind → Option Ir.BinaryOp
  | .plus => some .add
  | .minus => some .sub
  | .star => some .mul
  | .slash => some .sdiv
  | .doubleSlash => some .sdiv
  | .percent => some .srem
  | .ampersand => some .and
  | .pipe => some .or
  | .caret => some .xor
  | .shiftLeft => some .shl
  | .shiftRight => some .ashr
  | _ => none

def operation? (t : Numeric) (op : Kind) : Option Ir.BinaryOp :=
  match t with
  | .f32 => floatOp? op
  | _ => intOp? op

def order? : Kind → Option Ir.Order
  | .equal => some .eq
  | .notEqual => some .ne
  | .less => some .lt
  | .lessEqual => some .le
  | .greater => some .gt
  | .greaterEqual => some .ge
  | _ => none

def binary (op : Kind) (left right : Value) : Emit Value := do
  match ← promote left right with
  | none => Emit.failUnlocated (.operandTypes op left.type right.type)
  | some p =>
    match p.type.operation? op with
    | none => Emit.failUnlocated (.operandType op p.type.type)
    | some operation => return p.type.value (← Emit.emit (.binary operation p.left p.right))

/-- A single comparison: of numbers by any order, of truth values for being equal or not. -/
def compareOne (op : Kind) (left right : Value) : Emit Operand := do
  match left, right, op with
  | .bool x, .bool y, .equal => Emit.emit (.icmp .eq x y)
  | .bool x, .bool y, .notEqual => Emit.emit (.icmp .ne x y)
  | _, _, _ =>
    match ← promote left right with
    | none => Emit.failUnlocated (.operandTypes op left.type right.type)
    | some p =>
      match order? op with
      | none => Emit.failUnlocated (.comparison op)
      | some order =>
        match p.type with
        | .f32 => Emit.emit (.fcmp order p.left p.right)
        | _ => Emit.emit (.icmp order p.left p.right)

def compareRest (sofar : Operand) (left : Value) : List Kind → List Value → Emit Operand
  | op :: ops, right :: operands => do
    let c ← compareOne op left right
    let both ← Emit.emit (.binary .and sofar c)
    compareRest both right ops operands
  | _, _ => return sofar

/-- A comparison chain holds if all of its comparisons do. All of them are made. -/
def compare (ops : List Kind) (operands : List Value) : Emit Value := do
  match ops, operands with
  | op :: ops, left :: right :: operands =>
    if ops.length ≠ operands.length then
      Emit.failUnlocated (.operandCount (operands.length + 2) (ops.length + 1))
    else
      let first ← compareOne op left right
      return .bool (← compareRest first right ops operands)
  | ops, operands => Emit.failUnlocated (.operandCount operands.length ops.length)

end Numeric

namespace Operators

def numeric : Operators := ⟨Numeric.binary, Numeric.compare⟩

def binaryLine (op : Kind) (left right : Value) : String :=
  s!"{op.name} {left.type.name} {right.type.name}"

def compareLine (ops : List Kind) (operands : List Value) : String :=
  "[" ++ " ".intercalate (ops.map (·.name)) ++ "] " ++
    " ".intercalate (operands.map (·.type.name))

/-- Operators that keep a record of what they are asked for, and then do as `inner` does. -/
def recording (inner : Operators) : Operators where
  binary op left right := do
    Emit.record (binaryLine op left right)
    inner.binary op left right
  compare ops operands := do
    Emit.record (compareLine ops operands)
    inner.compare ops operands

def refusing (e : Error) : Operators where
  binary _ _ _ := throw e
  compare _ _ := throw e

end Operators

end BoardPython.Lowering
