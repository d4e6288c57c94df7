import BoardPython.Text.Quoted

/-! The boards a program can be compiled for. -/
namespace BoardPython

/-- A board, its processor, and what the code generator needs to know of it. -/
structure Board where
  name : String
  cpu : String
  triple : String
  dataLayout : String
  deriving DecidableEq, Repr, Inhabited

namespace Board

/-- The layout of the 8-bit processors: 16-bit pointers, functions in address space one, no
alignment beyond a byte. -/
def avrLayout : String := "e-P1-p:16:8-i8:8-i16:8-i32:8-i64:8-f32:8-f64:8-n8-a:8"

def uno : Board := ⟨"uno", "atmega328p", "avr", avrLayout⟩

def nano : Board := ⟨"nano", "atmega328p", "avr", avrLayout⟩

def mega : Board := ⟨"mega", "atmega2560", "avr", avrLayout⟩

def leonardo : Board := ⟨"leonardo", "atmega32u4", "avr", avrLayout⟩

def all : List Board := [leonardo, mega, nano, uno]

def default : Board := uno

def names : List String := all.map (·.name)

def nameList : String := "[" ++ " ".intercalate names ++ "]"

def find? (name : String) : Option Board := all.find? (·.name == name)

def unknown (name : String) : String :=
  s!"unknown board {Text.quote (Bytes.ofString name)} (known: {nameList})"

end Board

end BoardPython
