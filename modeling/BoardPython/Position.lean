/-! Source positions. -/
namespace BoardPython

/-- A place in a source text: line and column, both from one. -/
structure Position where
  line : Nat
  column : Nat
  deriving DecidableEq, Repr, Inhabited

namespace Position

def text (p : Position) : String := s!"{p.line}:{p.column}"

end Position

end BoardPython
