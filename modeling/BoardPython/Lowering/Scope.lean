import BoardPython.Lowering.Value

/-! Names and what they stand for: variables in scopes, functions in a table. -/
namespace BoardPython.Lowering

open Ir (Callee Operand)

inductive Storage where
  /-- A variable without a value is not kept anywhere. -/
  | nowhere
  /-- In the stack cell whose address is in a register. -/
  | stack (register : Nat)
  /-- In the module global of the same name. -/
  | module (immutable : Bool)
  deriving DecidableEq, Repr

structure Symbol where
  name : String
  type : ValueType
  storage : Storage
  deriving DecidableEq, Repr

namespace Symbol

def address? (s : Symbol) : Option Operand :=
  match s.storage with
  | .nowhere => none
  | .stack register => some (.register register (.pointer s.type.ir))
  | .module _ => some (.global s.name s.type.ir)

def isGlobal (s : Symbol) : Bool := s.storage matches .module _

def isImmutable (s : Symbol) : Bool := s.storage matches .module true

end Symbol

/-- Variables in the order of their declaration, at most one of a name. -/
structure Scope where
  symbols : List Symbol
  deriving Repr

namespace Scope

def empty : Scope := ⟨[]⟩

def find? (s : Scope) (name : String) : Option Symbol := s.symbols.find? (·.name == name)

def declare? (s : Scope) (symbol : Symbol) : Option Scope :=
  if (s.find? symbol.name).isSome then none else some ⟨s.symbols ++ [symbol]⟩

def declare (s : Scope) (symbol : Symbol) : Scope := (s.declare? symbol).getD s

def size (s : Scope) : Nat := s.symbols.length

def resolve? (locals : Option Scope) (globals : Scope) (name : String) : Option Symbol :=
  match locals.bind (·.find? name) with
  | some s => some s
  | none => globals.find? name

end Scope

structure Signature where
  name : String
  params : List ValueType
  result : ValueType
  callee : Callee
  deriving DecidableEq, Repr

/-- Functions by the key they are looked up with: a name, or the key of an overload. -/
structure FunctionTable where
  entries : List (String × Signature)
  deriving Repr

namespace FunctionTable

def empty : FunctionTable := ⟨[]⟩

def find? (t : FunctionTable) (key : String) : Option Signature :=
  (t.entries.find? (·.1 == key)).map (·.2)

def declare? (t : FunctionTable) (key : String) (signature : Signature) : Option FunctionTable :=
  if (t.find? key).isSome then none else some ⟨t.entries ++ [(key, signature)]⟩

def declare (t : FunctionTable) (key : String) (signature : Signature) : FunctionTable :=
  (t.declare? key signature).getD t

def keys (t : FunctionTable) : List String :=
  (t.entries.map (·.1)).mergeSort fun a b => decide (a ≤ b)

/-- The key of the overload of a function for first arguments of a type. -/
def overloadKey (name : String) (first : ValueType) : String := name ++ "__" ++ first.name

end FunctionTable

end BoardPython.Lowering
