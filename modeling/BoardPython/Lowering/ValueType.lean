import BoardPython.Ir.Constant

/-! The types of the values a program computes with. -/
namespace BoardPython.Lowering

/-- A value type. `other` are codes of no type. -/
inductive ValueType where
  | void | i8 | i16 | f32 | str | bool
  | other (code : Int)
  deriving DecidableEq, Repr, Inhabited

namespace ValueType

def name : ValueType → String
  | void => "void" | i8 => "i8" | i16 => "i16" | f32 => "f32" | str => "str" | bool => "bool"
  | other code => s!"ValueType({code})"

def ofCode (code : Int) : ValueType :=
  match code with
  | .ofNat n => [void, i8, i16, f32, str, bool].getD n (other code)
  | .negSucc _ => other code

def ofName? (s : String) : Option ValueType :=
  [void, i8, i16, f32, str, bool].find? (·.name == s)

def ir : ValueType → Ir.Ty
  | i8 => .i8
  | i16 => .i16
  | f32 => .float
  | str => .bytePointer
  | bool => .i1
  | void => .void
  | other _ => .void

def isInt : ValueType → Bool
  | i8 => true
  | i16 => true
  | _ => false

def ofHint? (hint : String) : Option ValueType :=
  if hint = "int" ∨ hint = "i16" then some i16
  else if hint = "i8" then some i8
  else if hint = "float" ∨ hint = "f32" then some f32
  else if hint = "str" then some str
  else if hint = "bool" then some bool
  else if hint = "None" then some void
  else none

/-- The value of variables that have not been assigned, and of functions that end without a
return. -/
def zero? : ValueType → Option Ir.Constant
  | i8 => some (.int 8 0)
  | i16 => some (.int 16 0)
  | f32 => some (.float (.finite false 0 Number.Format.single.least))
  | str => some (.null .i8)
  | bool => some (.bool false)
  | void => none
  | other _ => none

end ValueType

end BoardPython.Lowering
