import BoardPython.Lowering.Emit

/-! The body of a function that is being lowered: its blocks, and the one that code goes to. -/
namespace BoardPython.Lowering

open Ir (Block Instr Label Operand Terminator)

/-- A body under construction. The blocks are in the order of their creation, and the first one is
the entry. -/
structure Body where
  blocks : List Block
  current : Label
  register : Nat
  deriving Repr

namespace Body

def start : Body := ⟨[⟨.entry, [], none⟩], .entry, 0⟩

def update (b : Body) (label : Label) (f : Block → Block) : Body :=
  { b with blocks := b.blocks.map fun block => if block.label = label then f block else block }

def append (b : Body) (label : Label) (instrs : List Instr) : Body :=
  b.update label fun block => { block with instrs := block.instrs ++ instrs }

/-- Ends the current block, instead of the way it ended before, if it did. -/
def close (b : Body) (t : Terminator) : Body :=
  b.update b.current fun block => { block with terminator := some t }

def isOpen (b : Body) : Bool :=
  b.blocks.any fun block => block.label == b.current && block.terminator.isNone

def finish (b : Body) (t : Terminator) : Body := if b.isOpen then b.close t else b

def create (b : Body) (labels : List Label) : Body :=
  { b with blocks := b.blocks ++ labels.map (⟨·, [], none⟩) }

def goto (b : Body) (label : Label) : Body := { b with current := label }

/-- A stack cell, which is made on entry wherever it is first used. -/
def alloca (b : Body) (type : Ir.Ty) : Body × Nat :=
  let instr : Instr := ⟨some b.register, .alloca type⟩
  ({ b.append .entry [instr] with register := b.register + 1 }, b.register)

end Body

structure Frame where
  /-- The function; there is none for code outside of functions. -/
  signature : Option Signature
  locals : Scope
  globalNames : List String
  body : Body
  deriving Repr

namespace Frame

def top : Frame := ⟨none, .empty, [], .start⟩

def ofSignature (s : Signature) : Frame := ⟨some s, .empty, [], .start⟩

def locals? (f : Frame) : Option Scope := f.signature.map fun _ => f.locals

def isLocal (f : Frame) (name : String) : Bool :=
  f.signature.isSome && !f.globalNames.contains name

end Frame

end BoardPython.Lowering
