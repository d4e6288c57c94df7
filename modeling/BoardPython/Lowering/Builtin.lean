import BoardPython.Lowering.Scope

/-! What every program can use without defining it: the functions of the board's core library and
the names of its pins and levels. -/
namespace BoardPython.Lowering

structure Builtin where
  /-- What the program calls it by. -/
  key : String
  /-- What the linker calls it by. -/
  symbol : String
  params : List ValueType
  result : ValueType
  deriving DecidableEq, Repr

namespace Builtin

/-- Printing has an overload for each type that can be printed, and no function of its own name. -/
def all : List Builtin := [
  ⟨"pinMode", "pinMode", [.i8, .i8], .void⟩,
  ⟨"digitalWrite", "digitalWrite", [.i8, .i8], .void⟩,
  ⟨"digitalRead", "digitalRead", [.i8], .i16⟩,
  ⟨"analogRead", "analogRead", [.i8], .i16⟩,
  ⟨"analogWrite", "analogWrite", [.i8, .i16], .void⟩,
  ⟨"delay", "dsp_delay", [.i16], .void⟩,
  ⟨FunctionTable.overloadKey "print" .i8, "dsp_print_i8", [.i8], .void⟩,
  ⟨FunctionTable.overloadKey "print" .i16, "dsp_print_i16", [.i16], .void⟩,
  ⟨FunctionTable.overloadKey "print" .f32, "dsp_print_f32", [.f32], .void⟩,
  ⟨FunctionTable.overloadKey "print" .str, "dsp_print_str", [.str], .void⟩]

def constants : List (String × Int) :=
  [("LOW", 0), ("HIGH", 1), ("INPUT", 0), ("OUTPUT", 1), ("INPUT_PULLUP", 2), ("LED_BUILTIN", 13)]

def signature (b : Builtin) (id : Nat) : Signature :=
  ⟨b.key, b.params, b.result, ⟨id, b.symbol, b.params.map (·.ir), b.result.ir⟩⟩

def declaration (b : Builtin) : Ir.Function :=
  ⟨b.symbol, b.result.ir, b.params.map fun t => ⟨none, t.ir⟩, false, []⟩

def table : FunctionTable :=
  (all.zipIdx).foldl (fun t (b, id) => t.declare b.key (b.signature id)) .empty

def scope : Scope :=
  constants.foldl (fun s (name, _) => s.declare ⟨name, .i16, .module true⟩) .empty

def globals : List Ir.Global :=
  constants.map fun (name, value) => ⟨name, .int 16 value, true, true, false⟩

end Builtin

end BoardPython.Lowering
