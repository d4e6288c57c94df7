import BoardPython.Ir.Constant

/-! Code of the intermediate representation: a module of globals and functions, functions of
blocks, blocks of instructions. A register is a number that is unique in its function; the order in
which registers are written is settled when the function is. -/
namespace BoardPython.Ir

/-- An operand of an instruction. Every operand knows its type. -/
inductive Operand where
  | const (value : Constant)
  | register (id : Nat) (type : Ty)
  | param (name : String) (type : Ty)
  /-- The address of a module global that holds a `content`. -/
  | global (name : String) (content : Ty)
  deriving DecidableEq, Repr

namespace Operand

def type : Operand → Ty
  | const value => value.type
  | register _ type => type
  | param _ type => type
  | global _ content => .pointer content

def isConst : Operand → Bool
  | const _ => true
  | _ => false

end Operand

inductive BinaryOp where
  | add | sub | mul | sdiv | srem | and | or | xor | shl | ashr
  | fadd | fsub | fmul | fdiv | frem
  deriving DecidableEq, Repr

namespace BinaryOp

def text : BinaryOp → String
  | add => "add" | sub => "sub" | mul => "mul" | sdiv => "sdiv" | srem => "srem"
  | and => "and" | or => "or" | xor => "xor" | shl => "shl" | ashr => "ashr"
  | fadd => "fadd" | fsub => "fsub" | fmul => "fmul" | fdiv => "fdiv" | frem => "frem"

end BinaryOp

inductive Order where
  | eq | ne | lt | le | gt | ge
  deriving DecidableEq, Repr

namespace Order

def intText : Order → String
  | eq => "eq" | ne => "ne" | lt => "slt" | le => "sle" | gt => "sgt" | ge => "sge"

/-- The predicate on floats, which is false if one of them is no number. -/
def floatText : Order → String
  | eq => "oeq" | ne => "one" | lt => "olt" | le => "ole" | gt => "ogt" | ge => "oge"

end Order

inductive Conversion where
  | trunc | sext | sitofp
  deriving DecidableEq, Repr

namespace Conversion

def text : Conversion → String
  | trunc => "trunc" | sext => "sext" | sitofp => "sitofp"

end Conversion

/-- A function of the module as calls refer to it: its place in the list of functions, its name
and its type. -/
structure Callee where
  id : Nat
  symbol : String
  params : List Ty
  result : Ty
  deriving DecidableEq, Repr

inductive Operation where
  | binary (op : BinaryOp) (x y : Operand)
  | icmp (order : Order) (x y : Operand)
  | fcmp (order : Order) (x y : Operand)
  | convert (op : Conversion) (x : Operand) (target : Ty)
  | alloca (type : Ty)
  | load (type : Ty) (address : Operand)
  | store (value address : Operand)
  /-- The address of the first byte of a global byte array. -/
  | firstByte (name : String) (length : Nat)
  | call (tail : Bool) (callee : Callee) (args : List Operand)
  deriving DecidableEq, Repr

namespace Operation

def type : Operation → Ty
  | binary _ x _ => x.type
  | icmp .. => .i1
  | fcmp .. => .i1
  | convert _ _ target => target
  | alloca type => .pointer type
  | load type _ => type
  | store .. => .void
  | firstByte .. => .bytePointer
  | call _ callee _ => callee.result

end Operation

structure Instr where
  result : Option Nat
  operation : Operation
  deriving DecidableEq, Repr

inductive Label where
  | entry
  | ifThen (id : Nat) | ifElse (id : Nat) | ifMerge (id : Nat)
  | whileCond (id : Nat) | whileBody (id : Nat) | whileExit (id : Nat)
  /-- Code after a return, which nothing branches to. -/
  | afterReturn (id : Nat)
  deriving DecidableEq, Repr

namespace Label

def text : Label → String
  | entry => "entry"
  | ifThen id => s!"if_then_{id}"
  | ifElse id => s!"if_else_{id}"
  | ifMerge id => s!"if_merge_{id}"
  | whileCond id => s!"while_cond_{id}"
  | whileBody id => s!"while_body_{id}"
  | whileExit id => s!"while_exit_{id}"
  | afterReturn id => s!"after_return_{id}"

end Label

inductive Terminator where
  | ret (value : Option Operand)
  | jump (target : Label)
  | branch (cond : Operand) (yes no : Label)
  deriving DecidableEq, Repr

/-- A block. It is open as long as it has no terminator. -/
structure Block where
  label : Label
  instrs : List Instr
  terminator : Option Terminator
  deriving DecidableEq, Repr

structure Param where
  name : Option String
  type : Ty
  deriving DecidableEq, Repr

/-- A function. Without blocks it is a declaration. -/
structure Function where
  name : String
  result : Ty
  params : List Param
  internal : Bool
  blocks : List Block
  deriving DecidableEq, Repr

structure Global where
  name : String
  initial : Constant
  immutable : Bool
  isPrivate : Bool
  /-- Only the contents matter, not the address. -/
  unnamedAddr : Bool
  deriving DecidableEq, Repr

structure Module where
  dataLayout : String
  triple : String
  globals : List Global
  functions : List Function
  deriving DecidableEq, Repr

end BoardPython.Ir
