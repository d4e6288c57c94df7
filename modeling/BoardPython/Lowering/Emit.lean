import BoardPython.Diagnostics
import BoardPython.Lowering.Scope

/-! Emitting straight-line code. Lowering an expression adds instructions to the end of a block and
globals to the module, and it can warn; it changes nothing else. What was added before an error
stays. -/
namespace BoardPython.Lowering

open Ir (Operand Operation Ty)

structure Emission where
  instrs : List Ir.Instr
  globals : List Ir.Global
  warnings : List Diagnostic
  /-- What operators that keep a record have been asked for. -/
  trace : List String
  register : Nat
  strings : Nat
  deriving Repr

namespace Emission

def start (register strings : Nat) : Emission := ⟨[], [], [], [], register, strings⟩

end Emission

abbrev Emit := EStateM Error Emission

namespace Emit

def emit (operation : Operation) : Emit Operand :=
  modifyGet fun s =>
    (.register s.register operation.type,
      { s with
        instrs := s.instrs ++ [⟨some s.register, operation⟩]
        register := s.register + 1 })

def perform (operation : Operation) : Emit Unit :=
  modify fun s => { s with instrs := s.instrs ++ [⟨none, operation⟩] }

/-- Adds a global byte array for a string literal and gives the address of its first byte. -/
def stringLiteral (value : Bytes) : Emit Operand := do
  let number ← modifyGet fun s =>
    let number := s.strings + 1
    let g : Ir.Global := ⟨s!".str.{number}", .bytes (value ++ [0]), true, true, true⟩
    (number, { s with globals := s.globals ++ [g], strings := number })
  emit (.firstByte s!".str.{number}" (value.length + 1))

def warn (p : Position) (message : String) : Emit Unit :=
  modify fun s =>
    { s with warnings := s.warnings ++ [⟨.warning, message, p.line, p.column, none⟩] }

def record (line : String) : Emit Unit := modify fun s => { s with trace := s.trace ++ [line] }

def fail {α : Type} (position : Position) (fault : Fault) : Emit α :=
  throw (.located position fault)

/-- Fails with a fault whose place is not known here. -/
def failUnlocated {α : Type} (fault : Fault) : Emit α := throw ⟨none, fault⟩

def locate {α : Type} (position : Position) (x : Emit α) : Emit α := fun s =>
  match x s with
  | .ok a s => .ok a s
  | .error e s => .error (e.locate position) s

end Emit

end BoardPython.Lowering
