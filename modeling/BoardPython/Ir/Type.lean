/-! Types of the intermediate representation. -/
namespace BoardPython.Ir

inductive Ty where
  | void
  | int (bits : Nat)
  | float
  | double
  | pointer (target : Ty)
  | array (length : Nat) (element : Ty)
  deriving DecidableEq, Repr, Inhabited

namespace Ty

def text : Ty → String
  | void => "void"
  | int bits => s!"i{bits}"
  | float => "float"
  | double => "double"
  | pointer target => target.text ++ "*"
  | array length element => s!"[{length} x {element.text}]"

def bits? : Ty → Option Nat
  | int bits => some bits
  | _ => none

abbrev i1 : Ty := int 1

abbrev i8 : Ty := int 8

abbrev i16 : Ty := int 16

/-- Strings are pointers to their first byte. -/
abbrev bytePointer : Ty := pointer i8

end Ty

end BoardPython.Ir
