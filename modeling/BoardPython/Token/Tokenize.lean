import BoardPython.Token.Progress

/-! Running a lexer to the end of its text or to the first error. -/
namespace BoardPython

namespace Lexer

structure Run where
  result : Except SyntaxError (List Token)
  stop : Lexer

namespace Run

def prepend (ts : List Token) (run : Run) : Run := ⟨run.result.map (ts ++ ·), run.stop⟩

end Run

def steps (s : Lexer) : Run :=
  match _hs : s.rest with
  | [] => let (ts, stop) := s.finish; ⟨.ok ts, stop⟩
  | b :: _ =>
    match _h : s.step b with
    | .more ts next => next.steps.prepend ts
    | .fail error stop => ⟨.error error, stop⟩
termination_by s.work
decreasing_by exact step_work _hs _h

/-- A run begins with no tokens, at the start of a line. -/
def start (s : Lexer) : Lexer := { s with lineStart := true, last := none }

def run (s : Lexer) : Run := s.start.steps

end Lexer

def tokenize (source : Bytes) : Except SyntaxError (List Token) := (Lexer.ofBytes source).run.result

end BoardPython
