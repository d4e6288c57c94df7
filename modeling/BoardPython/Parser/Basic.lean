import BoardPython.SyntaxError

/-! Parsers over token lists. A parser either fails with a syntax error or gives a result and the
tokens after it. A list of tokens that does not end with an end token can also run out. -/
namespace BoardPython

open Token (Kind)

inductive Parser.Stop where
  | fault (error : SyntaxError)
  /-- The token list ended before the parser did. -/
  | outOfTokens
  deriving DecidableEq, Repr

abbrev Parser (α : Type) := StateT (List Token) (Except Parser.Stop) α

namespace Parser

def fail {α : Type} (pos : Position) (fault : SyntaxFault) : Parser α :=
  fun _ => .error (.fault ⟨pos, fault⟩)

def peek : Parser Token
  | t :: ts => .ok (t, t :: ts)
  | [] => .error .outOfTokens

def next : Parser Token
  | t :: ts => .ok (t, ts)
  | [] => .error .outOfTokens

/-- The kind of the token after the next one; past the end there are end tokens only. -/
def peekSecond : Parser Kind
  | ts => .ok ((ts.drop 1).head?.elim .eof (·.kind), ts)

def expect (k : Kind) : Parser Token := do
  let t ← peek
  if t.kind = k then next else fail t.position (.expected k t)

def accept (k : Kind) : Parser Bool := do
  let t ← peek
  if t.kind = k then
    let _ ← next
    return true
  else return false

/-- What a round of a loop comes to: another round, or the result. -/
inductive Round (α β : Type) where
  | again (state : α)
  | done (result : β)

/-- Rounds of `body`, at most one for each token of `bound` and one more. -/
def rounds {α β : Type} (body : α → Parser (Round α β)) (bound : List Token) (a : α) :
    Parser β := do
  match ← body a with
  | .done b => return b
  | .again a =>
    match bound with
    | [] => fun _ => .error .outOfTokens
    | _ :: bound => rounds body bound a

/-- Repeats `body` until it is done. Each round that asks for another takes at least one token, so
there are no more rounds than tokens and one. -/
def repeatUntil {α β : Type} (body : α → Parser (Round α β)) (a : α) : Parser β :=
  fun ts => rounds body ts a ts

/-- Items separated by commas up to a closing token, which stays. A comma may follow the last
item. -/
def commaSeparated {α : Type} (item : Parser α) (closing : Kind) : Parser (List α) :=
  repeatUntil (fun items => do
    let t ← peek
    if t.kind = closing then return .done items
    let items := items ++ [← item]
    if ← accept .comma then return .again items else return .done items) []

def text (t : Token) : String := Text.Utf8.toString t.text

end Parser

end BoardPython
