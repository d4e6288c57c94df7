import BoardPython.Text.Quoted
import BoardPython.Token

/-! Syntax errors: what is wrong, where, and how it is worded. -/
namespace BoardPython

inductive SyntaxFault where
  | strayCharacter (c : Char)
  /-- A line indented less than the one before, but not as much as any line around it. -/
  | unmatchedDedent
  | missingExponent
  /-- A number that runs into a name; `text` ends with the first byte of that name. -/
  | numberRunsOn (text : Bytes)
  | unterminatedString
  | truncatedEscape
  | badInteger (text : Bytes)
  | badFloat (text : Bytes)
  | expected (kind : Token.Kind) (got : Token)
  | expectedType (got : Token.Kind)
  | unexpected (got : Token.Kind)
  | subscript
  deriving DecidableEq, Repr

namespace SyntaxFault

/-- A token as messages name it: its kind, and its text in quotes unless it is empty. -/
def describe (t : Token) : String :=
  if t.text.isEmpty then t.kind.name else s!"{t.kind.name} {Text.quote t.text}"

def message : SyntaxFault → String
  | strayCharacter c => s!"unexpected character {Text.quoteChar c}"
  | unmatchedDedent => "unindent does not match any outer indentation level"
  | missingExponent => "invalid float literal"
  | numberRunsOn text => s!"invalid number literal {Text.quote text}"
  | unterminatedString => "unterminated string literal"
  | truncatedEscape => "truncated \\xXX escape"
  | badInteger text => s!"invalid integer literal {Text.quote text}"
  | badFloat text => s!"invalid float literal {Text.quote text}"
  | expected kind got => s!"expected {kind.name}, got {describe got}"
  | expectedType got => s!"expected type annotation, got {got.name}"
  | unexpected got => s!"unexpected {got.name}"
  | subscript => "subscripts are not supported"

end SyntaxFault

structure SyntaxError where
  position : Position
  fault : SyntaxFault
  deriving DecidableEq, Repr

namespace SyntaxError

def text (e : SyntaxError) : String := s!"{e.position.text}: syntax error: {e.fault.message}"

end SyntaxError

end BoardPython
