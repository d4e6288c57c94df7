import BoardPython.Ir.Code

/-! The text of a module. -/
namespace BoardPython.Ir

def isBareNameByte (b : UInt8) : Bool :=
  Bytes.isDigit b || (0x41 ≤ b.toNat && b.toNat ≤ 0x5A) || (0x61 ≤ b.toNat && b.toNat ≤ 0x7A)
    || b.toNat == 0x24 || b.toNat == 0x2E || b.toNat == 0x5F || b.toNat == 0x2D

def nameText (name : String) : String :=
  let bs := Bytes.ofString name
  if bs.all isBareNameByte then name else "\"" ++ Text.escape bs ++ "\""

def globalName (name : String) : String := "@" ++ nameText name

def localName (name : String) : String := "%" ++ nameText name

/-- The number that each register is written with. -/
abbrev Numbering := Nat → Nat

namespace Operand

def ident (number : Numbering) : Operand → String
  | const value => value.text
  | register id _ => s!"%{number id}"
  | param name _ => localName name
  | global name _ => globalName name

def text (number : Numbering) (x : Operand) : String := x.type.text ++ " " ++ x.ident number

end Operand

namespace Operation

def text (number : Numbering) : Operation → String
  | binary op x y => s!"{op.text} {x.text number}, {y.ident number}"
  | icmp order x y => s!"icmp {order.intText} {x.text number}, {y.ident number}"
  | fcmp order x y => s!"fcmp {order.floatText} {x.text number}, {y.ident number}"
  | convert op x target => s!"{op.text} {x.text number} to {target.text}"
  | alloca type => s!"alloca {type.text}"
  | load type address => s!"load {type.text}, {address.text number}"
  | store value address => s!"store {value.text number}, {address.text number}"
  | firstByte name length =>
    let array := Ty.array length .i8
    s!"getelementptr inbounds {array.text}, {array.text}* {globalName name}, i16 0, i16 0"
  | call tail callee args =>
    let arguments := ", ".intercalate (args.map (Operand.text number))
    (if tail then "tail " else "") ++
      s!"call {callee.result.text} {globalName callee.symbol}({arguments})"

end Operation

namespace Instr

def text (number : Numbering) (i : Instr) : String :=
  match i.result with
  | some id => s!"%{number id} = " ++ i.operation.text number
  | none => i.operation.text number

end Instr

namespace Terminator

def text (number : Numbering) : Terminator → String
  | ret none => "ret void"
  | ret (some x) => "ret " ++ x.text number
  | jump target => s!"br label {localName target.text}"
  | branch cond yes no =>
    s!"br {cond.text number}, label {localName yes.text}, label {localName no.text}"

end Terminator

namespace Block

/-- The lines of a block: its label, then instructions and terminator after a tab each. -/
def lines (number : Numbering) (b : Block) : List String :=
  (nameText b.label.text ++ ":") ::
    (b.instrs.map (Instr.text number) ++ (b.terminator.map (Terminator.text number)).toList).map
      ("\t" ++ ·)

end Block

def unlines (lines : List String) : String := String.join (lines.map (· ++ "\n"))

namespace Function

def registers (f : Function) : List Nat :=
  f.blocks.flatMap fun b => b.instrs.filterMap (·.result)

/-- Registers are numbered from zero in the order of the text. -/
def numbering (f : Function) : Numbering :=
  let order := f.registers
  fun id => order.idxOf id

def paramText (f : Function) : String :=
  ", ".intercalate (f.params.mapIdx fun i p =>
    p.type.text ++ " " ++ (p.name.map localName).getD s!"%{i}")

def text (f : Function) : String :=
  let head := s!"{f.result.text} {globalName f.name}({f.paramText})"
  if f.blocks.isEmpty then unlines ["declare " ++ head]
  else
    let opening := "define " ++ (if f.internal then "internal " else "") ++ head ++ " \x7b"
    let number := f.numbering
    let blocks := f.blocks.map fun b => unlines (b.lines number)
    unlines [opening] ++ "\n".intercalate blocks ++ unlines ["\x7d"]

end Function

def Callee.reference (f : Callee) : String :=
  let types := ", ".intercalate (f.params.map Ty.text)
  s!"{f.result.text} ({types})* {globalName f.symbol}"

namespace Global

def text (g : Global) : String :=
  globalName g.name ++ " = " ++ (if g.isPrivate then "private " else "") ++
    (if g.unnamedAddr then "unnamed_addr " else "") ++
    (if g.immutable then "constant " else "global ") ++ g.initial.type.text ++ " " ++
    g.initial.text

end Global

namespace Module

def text (m : Module) : String :=
  unlines [s!"target datalayout = \"{m.dataLayout}\"", s!"target triple = \"{m.triple}\"", ""] ++
    unlines (m.globals.map Global.text) ++ "\n" ++
    "\n".intercalate (m.functions.map Function.text)

end Module

end BoardPython.Ir
