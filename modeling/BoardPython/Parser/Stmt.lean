import BoardPython.Parser.Expr
import BoardPython.Token.Tokenize

/-! The statement grammar and whole source texts. -/
namespace BoardPython

open Token (Kind)

namespace Parser

def hint : Parser String := do
  let t ← peek
  if t.kind = .identifier ∨ t.kind = .kwNone then
    let _ ← next
    return text t
  else fail t.position (.expectedType t.kind)

def hintAfter (mark : Kind) : Parser (Option String) := do
  if ← accept mark then return some (← hint) else return none

def augmentedBy? : Kind → Option Kind
  | .plusAssign => some .plus
  | .minusAssign => some .minus
  | .starAssign => some .star
  | .slashAssign => some .slash
  | .percentAssign => some .percent
  | _ => none

def moreNames (names : List String) : Parser (List String) :=
  repeatUntil (fun names => do
    if ← accept .comma then return .again (names ++ [text (← expect .identifier)])
    else return .done names) names

def assignment : Parser Stmt := do
  let t ← expect .identifier
  let type ← hintAfter .colon
  let _ ← expect .assign
  return .assign t.position (text t) type (← expression)

def evaluation : Parser Stmt := do
  let t ← peek
  return .evaluate t.position (← expression)

def nameStatement : Parser Stmt := do
  let t ← peek
  let second ← peekSecond
  if second = .assign ∨ second = .colon then assignment
  else match augmentedBy? second with
    | some op =>
      let _ ← next
      let _ ← next
      return .augment t.position (text t) op (← expression)
    | none => evaluation

/-- A statement without a block, up to but without the end of its line. -/
def simple : Parser Stmt := do
  let t ← peek
  match t.kind with
  | .kwPass =>
    let _ ← next
    return .pass t.position
  | .kwReturn =>
    let _ ← next
    let after ← peek
    if after.kind = .newline then return .ret t.position none
    else return .ret t.position (some (← expression))
  | .kwGlobal =>
    let _ ← next
    let first ← expect .identifier
    return .globals t.position (← moreNames [text first])
  | .identifier => nameStatement
  | _ => evaluation

def simpleLine : Parser Stmt := do
  let s ← simple
  let _ ← expect .newline
  return s

/-- A block: one simple statement on the line of its header, or an indented list of statements. -/
def block (stmt : Parser Stmt) : Parser (List Stmt) := do
  let _ ← expect .colon
  let t ← peek
  if t.kind ≠ .newline then return [← simpleLine]
  let _ ← next
  let _ ← expect .indent
  let body ← repeatUntil (fun body => do
    let t ← peek
    if t.kind = .dedent ∨ t.kind = .eof then return .done body
    else return .again (body ++ [← stmt])) []
  let _ ← expect .dedent
  return body

def parameter : Parser Param := do
  let t ← expect .identifier
  return ⟨t.position, text t, ← hintAfter .colon⟩

def definition (stmt : Parser Stmt) : Parser Stmt := do
  let t ← expect .kwDef
  let name ← expect .identifier
  let _ ← expect .leftParen
  let params ← commaSeparated parameter .rightParen
  let _ ← expect .rightParen
  let returns ← hintAfter .arrow
  return .define t.position (text name) params returns (← block stmt)

/-- A condition and its block, then the further conditions, which `chained` parses, or the
block for all other cases. It starts at the keyword in front of the condition. -/
def conditional (stmt chained : Parser Stmt) : Parser Stmt := do
  let t ← next
  let cond ← expression
  let body ← block stmt
  let after ← peek
  match after.kind with
  | .kwElif => return .branch t.position cond body [← chained]
  | .kwElse =>
    let _ ← next
    return .branch t.position cond body (← block stmt)
  | _ => return .branch t.position cond body []

def whileLoop (stmt : Parser Stmt) : Parser Stmt := do
  let t ← expect .kwWhile
  let cond ← expression
  return .loop t.position cond (← block stmt)

structure Statements where
  stmt : Parser Stmt
  chained : Parser Stmt

namespace Statements

def none : Statements :=
  let stop : Parser Stmt := fun _ => .error .outOfTokens
  ⟨stop, stop⟩

/-- One more layer: the blocks of a statement are parsed by `inner`. -/
def layer (inner : Statements) : Statements :=
  let chained := conditional inner.stmt inner.chained
  let stmt : Parser Stmt := do
    let t ← peek
    match t.kind with
    | .kwDef => definition inner.stmt
    | .kwIf => chained
    | .kwWhile => whileLoop inner.stmt
    | _ => simpleLine
  ⟨stmt, chained⟩

/-- Statements nested at most once for each token of `bound`. A layer is built only when a token
asks for it. -/
def upTo : (bound : List Token) → Statements
  | [] => layer none
  | _ :: bound => layer ⟨fun ts => (upTo bound).stmt ts, fun ts => (upTo bound).chained ts⟩

end Statements

/-- A statement. Each level of nesting takes a token. -/
def statement : Parser Stmt := fun ts => (Statements.upTo ts).stmt ts

/-- The outcome for a whole token list: the statements completed, and what stopped the parser if
it did not reach the end. -/
structure Outcome where
  stmts : List Stmt
  stop : Option Stop

def statements : Nat → List Stmt → List Token → Outcome
  | 0, stmts, _ => ⟨stmts, some .outOfTokens⟩
  | n + 1, stmts, ts =>
    match ts with
    | [] => ⟨stmts, some .outOfTokens⟩
    | t :: _ =>
      if t.kind = .eof then ⟨stmts, none⟩
      else match statement ts with
        | .ok (s, rest) => statements n (stmts ++ [s]) rest
        | .error stop => ⟨stmts, some stop⟩

def run (ts : List Token) : Outcome := statements (ts.length + 1) [] ts

/-- The outcome for a single expression: the expression if it is complete, and what stopped the
parser, be it in the expression or after it. -/
structure ExprOutcome where
  expr : Option Expr
  stop : Option Stop

/-- Parses a token list as one expression, which may be followed by the end of its line. -/
def runExpr (ts : List Token) : ExprOutcome :=
  match expression ts with
  | .error stop => ⟨none, some stop⟩
  | .ok (e, rest) =>
    let ending : Parser Unit := do
      let _ ← accept .newline
      let _ ← expect .eof
    match ending rest with
    | .ok _ => ⟨some e, none⟩
    | .error stop => ⟨some e, some stop⟩

end Parser

def parseSource (source : Bytes) : Parser.Outcome :=
  match tokenize source with
  | .ok ts => Parser.run ts
  | .error e => ⟨[], some (.fault e)⟩

def parseExpr (source : Bytes) : Parser.ExprOutcome :=
  match tokenize source with
  | .ok ts => Parser.runExpr ts
  | .error e => ⟨none, some (.fault e)⟩

end BoardPython
