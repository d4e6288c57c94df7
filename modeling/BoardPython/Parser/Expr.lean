import BoardPython.Parser.Basic
import BoardPython.Tree

/-! The expression grammar, one function for each level of binding strength, from atoms to whole
expressions. The functions that need an expression inside an expression take its parser as an
argument; `Grammar` ties the knot, with as many layers as there are tokens. -/
namespace BoardPython.Parser

open Token (Kind)

def numberAtom (t : Token) : Parser Expr :=
  match Number.Numeral.read t.text with
  | .ok value => return .number t.position value (text t)
  | .error .integer => fail t.position (.badInteger t.text)
  | .error .float => fail t.position (.badFloat t.text)

/-- The string literals that directly follow one another, joined after `value`. -/
def adjacentStrings (value : Bytes) : Parser Bytes :=
  repeatUntil (fun value => do
    let t ← peek
    if t.kind = .string then
      let _ ← next
      return .again (value ++ t.text)
    else return .done value) value

/-- Literals, names, and everything in brackets. Parentheses leave no node. -/
def atom (expr : Parser Expr) : Parser Expr := do
  let t ← peek
  match t.kind with
  | .number =>
    let _ ← next
    numberAtom t
  | .string =>
    let _ ← next
    return .string t.position (← adjacentStrings t.text)
  | .kwTrue =>
    let _ ← next
    return .bool t.position true
  | .kwFalse =>
    let _ ← next
    return .bool t.position false
  | .kwNone =>
    let _ ← next
    return .none t.position
  | .ellipsis =>
    let _ ← next
    return .ellipsis t.position
  | .identifier =>
    let _ ← next
    return .name t.position (text t)
  | .leftParen =>
    let _ ← next
    let e ← expr
    let _ ← expect .rightParen
    return e
  | .leftBracket =>
    let _ ← next
    let elements ← commaSeparated expr .rightBracket
    let _ ← expect .rightBracket
    return .list t.position elements
  | _ => fail t.position (.unexpected t.kind)

/-- Calls and attributes after an atom. A call is reported where its callee is, an attribute at
its dot. -/
def postfixes (expr : Parser Expr) : Parser Expr := do
  let first ← atom expr
  repeatUntil (fun e => do
    let t ← peek
    match t.kind with
    | .leftParen =>
      let _ ← next
      let args ← commaSeparated expr .rightParen
      let _ ← expect .rightParen
      return .again (.call e.position e args)
    | .dot =>
      let _ ← next
      let field ← expect .identifier
      return .again (.member t.position e (text field))
    | .leftBracket => fail t.position .subscript
    | _ => return .done e) first

/-- Powers: the right operand is a whole unary expression, so they associate to the right. -/
def power (expr unary : Parser Expr) : Parser Expr := do
  let base ← postfixes expr
  let t ← peek
  if t.kind = .doubleStar then
    let _ ← next
    return .binary t.position .doubleStar base (← unary)
  else return base

def isSign (k : Kind) : Bool := k == .minus || k == .plus || k == .tilde

/-- Signs bind weaker than powers. -/
def signed (expr unary : Parser Expr) : Parser Expr := do
  let t ← peek
  if isSign t.kind then
    let _ ← next
    return .unary t.position t.kind (← unary)
  else power expr unary

/-- The levels of binary operators that associate to the left, tightest first. -/
def binaryLevels : List (List Kind) :=
  [[.star, .slash, .doubleSlash, .percent], [.plus, .minus], [.shiftLeft, .shiftRight],
   [.ampersand], [.caret], [.pipe]]

def leftChain (ops : List Kind) (node : Position → Kind → Expr → Expr → Expr)
    (operand : Parser Expr) : Parser Expr := do
  let first ← operand
  repeatUntil (fun left => do
    let t ← peek
    if ops.contains t.kind then
      let _ ← next
      return .again (node t.position t.kind left (← operand))
    else return .done left) first

/-- Arithmetic: all levels of binary operators on top of `operand`. -/
def arithmetic (operand : Parser Expr) : Parser Expr :=
  binaryLevels.foldl (fun p ops => leftChain ops .binary p) operand

def isComparison (k : Kind) : Bool :=
  k == .less || k == .greater || k == .lessEqual || k == .greaterEqual || k == .equal
    || k == .notEqual

/-- A comparison chain is one node, reported where its first operand is. -/
def comparison (operand : Parser Expr) : Parser Expr := do
  let first ← operand
  let (ops, operands) ← repeatUntil (fun (ops, operands) => do
    let t ← peek
    if isComparison t.kind then
      let _ ← next
      return .again (ops ++ [t.kind], operands ++ [← operand])
    else return .done (ops, operands)) (([] : List Kind), [first])
  if ops.isEmpty then return first else return .compare first.position ops operands

def disjunction (negation : Parser Expr) : Parser Expr :=
  leftChain [.kwOr] .logical (leftChain [.kwAnd] .logical negation)

def lambdaParams : Parser (List String) :=
  repeatUntil (fun names => do
    let t ← peek
    if t.kind = .identifier then
      let _ ← next
      let names := names ++ [text t]
      if ← accept .comma then return .again names else return .done names
    else return .done names) []

def lambda (expr : Parser Expr) : Parser Expr := do
  let t ← expect .kwLambda
  let params ← lambdaParams
  let _ ← expect .colon
  return .lambda t.position params (← expr)

/-- The parsers for the expressions that can stand inside themselves. -/
structure Grammar where
  expr : Parser Expr
  negation : Parser Expr
  unary : Parser Expr

namespace Grammar

def none : Grammar :=
  let stop : Parser Expr := fun _ => .error .outOfTokens
  ⟨stop, stop, stop⟩

/-- One more layer: what stands inside is parsed by `inner`. -/
def layer (inner : Grammar) : Grammar :=
  let unary := signed inner.expr inner.unary
  let negation : Parser Expr := do
    let t ← peek
    if t.kind = .kwNot then
      let _ ← next
      return .unary t.position .kwNot (← inner.negation)
    else comparison (arithmetic unary)
  let expr : Parser Expr := do
    let t ← peek
    if t.kind = .kwLambda then lambda inner.expr else disjunction negation
  ⟨expr, negation, unary⟩

/-- Expressions nested at most once for each token of `bound`. A layer is built only when a token
asks for it. -/
def upTo : (bound : List Token) → Grammar
  | [] => layer none
  | _ :: bound =>
    layer ⟨fun ts => (upTo bound).expr ts, fun ts => (upTo bound).negation ts,
      fun ts => (upTo bound).unary ts⟩

end Grammar

/-- An expression. Each level of nesting takes a token, so there are no more levels than
tokens. -/
def expression : Parser Expr := fun ts => (Grammar.upTo ts).expr ts

end BoardPython.Parser
