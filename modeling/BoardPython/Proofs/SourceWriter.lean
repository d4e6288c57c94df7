import BoardPython.Proofs.Derivations

/-! Writing trees as source text: one line for a simple statement or a header, four more spaces in
front of each nested suite, and parentheses around every operand that is not a single word. A tree is
written as words, and a `Style` says how far apart they stand and whether `elif` is used. Trees are
compared by `bare`, without positions and without the spelling of their numbers. -/
namespace BoardPython

open Token (Kind)
open Bytes (ascii)

def isAsciiName (c : Char) : Bool := c.isAlphanum || c == '_'

def isAsciiWord (s : String) : Bool :=
  match s.toList with
  | [] => false
  | c :: cs => (c.isAlpha || c == '_') && cs.all isAsciiName

/-- Such a name that is no keyword. -/
def isIdentifier (id : String) : Bool := isAsciiWord id && Kind.keywords.all (·.name != id)

/-- What can stand behind a colon or an arrow to name a type. -/
def isHint (type : String) : Bool := type == Kind.kwNone.name || isIdentifier type

/-- The smallest pieces of a written text. -/
inductive Word where
  | number (n : Nat)
  | string (value : Bytes)
  | name (id : String)
  /-- A keyword, an operator or a delimiter. -/
  | symbol (k : Kind)
  deriving DecidableEq, Repr

namespace Word

def hexEscape (b : UInt8) : Bytes :=
  [ascii '\\', ascii 'x', ascii (Bytes.lowerHexDigit (b.toNat / 16)),
    ascii (Bytes.lowerHexDigit (b.toNat % 16))]

def written : Word → Bytes
  | number n => (Nat.toDigits 10 n).map ascii
  | string value => ascii '"' :: (value.flatMap hexEscape ++ [ascii '"'])
  | name id => Bytes.ofString id
  | symbol k => k.spelling

/-- The kind and the text of the token that a word is meant to become. -/
def content : Word → Kind × Bytes
  | number n => (.number, (number n).written)
  | string value => (.string, value)
  | name id => (.identifier, Bytes.ofString id)
  | symbol k => (k, k.spelling)

def isValid : Word → Bool
  | number _ | string _ => true
  | name id => isIdentifier id
  | symbol k => Kind.keywords.contains k || Kind.operators.contains k

def opens (w : Word) : Bool := w == symbol .leftParen || w == symbol .leftBracket

def closes (w : Word) : Bool := w == symbol .rightParen || w == symbol .rightBracket

def isName : Word → Bool
  | name _ => true
  | _ => false

/-- Whether two words may stand side by side without a space: behind an opening bracket, in front of
a closing one, a comma or a colon, around the dot of an attribute, and where a call begins. -/
def touches (a b : Word) : Bool :=
  a.opens || b.closes || b == symbol .comma || b == symbol .colon ||
    ((a.isName || a == symbol .rightParen) && (b == symbol .leftParen || b == symbol .dot)) ||
    (a == symbol .dot && b.isName)

def depthAfter (depth : Nat) (w : Word) : Nat :=
  if w.opens then depth + 1 else if w.closes then depth - 1 else depth

end Word

/-- A way of writing: how many spaces stand between two words, and whether a conditional that is all
of what is done otherwise is written as `elif`. -/
structure Style where
  gap : Word → Word → Nat
  chained : Bool
  apart : ∀ a b, gap a b = 0 → a.touches b = true

namespace Style

/-- No space where none is needed, and one elsewhere. -/
def tight (chained : Bool) : Style where
  gap a b := if a.touches b then 0 else 1
  chained := chained
  apart a b h := by
    by_contra hnot
    rw [if_neg hnot] at h
    cases h

def row (style : Style) : List Word → Bytes
  | [] => []
  | [w] => w.written
  | w :: w' :: ws =>
    w.written ++ (List.replicate (style.gap w w') (ascii ' ') ++ style.row (w' :: ws))

end Style

def commaWords : List (List Word) → List Word
  | [] => []
  | [ws] => ws
  | ws :: ws' :: rest => ws ++ .symbol .comma :: commaWords (ws' :: rest)

/-- Operators, each with the words of the operand after it. -/
def chainWords : List Kind → List (List Word) → List Word
  | op :: ops, ws :: rest => .symbol op :: (ws ++ chainWords ops rest)
  | _, _ => []

def comparisonWords (ops : List Kind) : List (List Word) → List Word
  | [] => []
  | first :: rest => first ++ chainWords ops rest

/-- The natural number that a numeral is. No other numeral is written. -/
def Number.Numeral.natural : Number.Numeral → Nat
  | .int n => n.toNat
  | _ => 0

def Expr.isAtom : Expr → Bool
  | .number .. | .string .. | .name .. | .bool .. | .none _ | .ellipsis _ => true
  | _ => false

def Expr.asOperand (e : Expr) (ws : List Word) : List Word :=
  if e.isAtom then ws else .symbol .leftParen :: (ws ++ [.symbol .rightParen])

mutual

def Expr.words : Expr → List Word
  | .number _ value _ => [.number value.natural]
  | .string _ value => [.string value]
  | .name _ id => [.name id]
  | .bool _ value => [.symbol (if value then .kwTrue else .kwFalse)]
  | .none _ => [.symbol .kwNone]
  | .ellipsis _ => [.symbol .ellipsis]
  | .binary _ op left right | .logical _ op left right =>
    left.asOperand left.words ++ .symbol op :: right.asOperand right.words
  | .unary _ op operand => .symbol op :: operand.asOperand operand.words
  | .compare _ ops operands =>
    comparisonWords ops (List.zipWith Expr.asOperand operands (wordsAll operands))
  | .call _ callee args =>
    callee.asOperand callee.words ++
      .symbol .leftParen :: (commaWords (wordsAll args) ++ [.symbol .rightParen])
  | .member _ value field => value.asOperand value.words ++ [.symbol .dot, .name field]
  | .list _ elements =>
    .symbol .leftBracket :: (commaWords (wordsAll elements) ++ [.symbol .rightBracket])
  | .lambda _ params body =>
    .symbol .kwLambda :: (commaWords (params.map fun id => [.name id]) ++
      .symbol .colon :: body.words)

def wordsAll : List Expr → List (List Word)
  | [] => []
  | e :: es => e.words :: wordsAll es

end

def hintWords (mark : Kind) : Option String → List Word
  | none => []
  | some type => [.symbol mark, if type = Kind.kwNone.name then .symbol .kwNone else .name type]

def Param.words (p : Param) : List Word := .name p.name :: hintWords .colon p.hint

def signatureWords (name : String) (params : List Param) (returns : Option String) : List Word :=
  .symbol .kwDef :: .name name :: .symbol .leftParen ::
    (commaWords (params.map Param.words) ++ .symbol .rightParen :: hintWords .arrow returns)

/-- The sign of the augmented assignment that applies an operator. -/
def augmentSign (op : Kind) : Kind :=
  ((augmentations.find? (·.2 == op)).map (·.1)).getD .assign

/-- A line of source text: how deep the suite is that it belongs to, and its words. -/
structure Line where
  depth : Nat
  words : List Word

def Stmt.isBranch : Stmt → Bool
  | .branch .. => true
  | _ => false

mutual

/-- The lines of a statement in a suite of the given depth. A conditional begins with the keyword
`k`. -/
def Stmt.lines (chained : Bool) (k : Kind) (depth : Nat) : Stmt → List Line
  | .define _ name params returns body =>
    ⟨depth, signatureWords name params returns ++ [.symbol .colon]⟩ ::
      linesAll chained (depth + 1) body
  | .assign _ name hint value =>
    [⟨depth, .name name :: (hintWords .colon hint ++ .symbol .assign :: value.words)⟩]
  | .augment _ name op value => [⟨depth, .name name :: .symbol (augmentSign op) :: value.words⟩]
  | .ret _ value => [⟨depth, .symbol .kwReturn :: value.elim [] Expr.words⟩]
  | .branch _ cond body orElse =>
    ⟨depth, .symbol k :: (cond.words ++ [.symbol .colon])⟩ ::
      (linesAll chained (depth + 1) body ++ elseLines chained depth orElse)
  | .loop _ cond body =>
    ⟨depth, .symbol .kwWhile :: (cond.words ++ [.symbol .colon])⟩ ::
      linesAll chained (depth + 1) body
  | .evaluate _ value => [⟨depth, value.words⟩]
  | .pass _ => [⟨depth, [.symbol .kwPass]⟩]
  | .globals _ names =>
    [⟨depth, .symbol .kwGlobal :: commaWords (names.map fun id => [.name id])⟩]

def linesAll (chained : Bool) (depth : Nat) : List Stmt → List Line
  | [] => []
  | s :: rest => s.lines chained .kwIf depth ++ linesAll chained depth rest

def elseLines (chained : Bool) (depth : Nat) : List Stmt → List Line
  | [] => []
  | s :: rest =>
    if chained && s.isBranch && rest.isEmpty then s.lines chained .kwElif depth
    else ⟨depth, [.symbol .kwElse, .symbol .colon]⟩ ::
      (s.lines chained .kwIf (depth + 1) ++ linesAll chained (depth + 1) rest)

end

namespace Style

def line (style : Style) (l : Line) : Bytes :=
  List.replicate (4 * l.depth) (ascii ' ') ++ (style.row l.words ++ [ascii '\n'])

def text (style : Style) (stmts : List Stmt) : Bytes :=
  (linesAll style.chained 0 stmts).flatMap style.line

end Style

def Level.arithmetic : List Level := [.pipe, .caret, .ampersand, .shift, .sum, .product]

mutual

/-- The expressions that are written: their numbers are natural, their names are identifiers, and
their operators are those that the grammar has for such a node. -/
def Expr.Regular : Expr → Prop
  | .number _ value _ => ∃ n : Nat, value = .int n
  | .string .. | .bool .. | .none _ | .ellipsis _ => True
  | .name _ id => isIdentifier id = true
  | .binary _ op left right =>
    op ∈ .doubleStar :: Level.arithmetic.flatMap Level.operators ∧ left.Regular ∧ right.Regular
  | .unary _ op operand => op ∈ [.kwNot, .minus, .plus, .tilde] ∧ operand.Regular
  | .logical _ op left right => op ∈ [.kwAnd, .kwOr] ∧ left.Regular ∧ right.Regular
  | .compare _ ops operands =>
    ops ≠ [] ∧ ops ⊆ Level.comparison.operators ∧ operands.length = ops.length + 1 ∧
      RegularAll operands
  | .call _ callee args => callee.Regular ∧ RegularAll args
  | .member _ value field => value.Regular ∧ isIdentifier field = true
  | .list _ elements => RegularAll elements
  | .lambda _ params body => (∀ id ∈ params, isIdentifier id = true) ∧ body.Regular

def RegularAll : List Expr → Prop
  | [] => True
  | e :: es => e.Regular ∧ RegularAll es

end

structure Param.Regular (p : Param) : Prop where
  name : isIdentifier p.name = true
  hint : ∀ type ∈ p.hint, isHint type = true

mutual

/-- The statements that are written. Their suites are not empty. -/
def Stmt.Regular : Stmt → Prop
  | .define _ name params returns body =>
    isIdentifier name = true ∧ (∀ p ∈ params, p.Regular) ∧ (∀ type ∈ returns, isHint type = true) ∧
      body ≠ [] ∧ SuiteRegular body
  | .assign _ name hint value =>
    isIdentifier name = true ∧ (∀ type ∈ hint, isHint type = true) ∧ value.Regular
  | .augment _ name op value =>
    isIdentifier name = true ∧ op ∈ augmentations.map (·.2) ∧ value.Regular
  | .ret _ value => ∀ e ∈ value, e.Regular
  | .branch _ cond body orElse =>
    cond.Regular ∧ body ≠ [] ∧ SuiteRegular body ∧ SuiteRegular orElse
  | .loop _ cond body => cond.Regular ∧ body ≠ [] ∧ SuiteRegular body
  | .evaluate _ value => value.Regular
  | .pass _ => True
  | .globals _ names => names ≠ [] ∧ ∀ id ∈ names, isIdentifier id = true

def SuiteRegular : List Stmt → Prop
  | [] => True
  | s :: rest => s.Regular ∧ SuiteRegular rest

end

mutual

/-- An expression without its positions and the spelling of its numbers. -/
def Expr.bare : Expr → Expr
  | .number _ value _ => .number default value ""
  | .string _ value => .string default value
  | .name _ id => .name default id
  | .bool _ value => .bool default value
  | .none _ => .none default
  | .ellipsis _ => .ellipsis default
  | .binary _ op left right => .binary default op left.bare right.bare
  | .unary _ op operand => .unary default op operand.bare
  | .logical _ op left right => .logical default op left.bare right.bare
  | .compare _ ops operands => .compare default ops (bareAll operands)
  | .call _ callee args => .call default callee.bare (bareAll args)
  | .member _ value field => .member default value.bare field
  | .list _ elements => .list default (bareAll elements)
  | .lambda _ params body => .lambda default params body.bare

def bareAll : List Expr → List Expr
  | [] => []
  | e :: es => e.bare :: bareAll es

end

def Param.bare (p : Param) : Param := { p with pos := default }

mutual

/-- A statement without its positions and the spelling of its numbers. -/
def Stmt.bare : Stmt → Stmt
  | .define _ name params returns body =>
    .define default name (params.map Param.bare) returns (suiteBare body)
  | .assign _ name hint value => .assign default name hint value.bare
  | .augment _ name op value => .augment default name op value.bare
  | .ret _ value => .ret default (value.map Expr.bare)
  | .branch _ cond body orElse => .branch default cond.bare (suiteBare body) (suiteBare orElse)
  | .loop _ cond body => .loop default cond.bare (suiteBare body)
  | .evaluate _ value => .evaluate default value.bare
  | .pass _ => .pass default
  | .globals _ names => .globals default names

def suiteBare : List Stmt → List Stmt
  | [] => []
  | s :: rest => s.bare :: suiteBare rest

end

theorem suiteBare_eq_map (stmts : List Stmt) : suiteBare stmts = stmts.map Stmt.bare := by
  induction stmts with
  | nil => rfl
  | cons s rest ih => rw [suiteBare, ih, List.map_cons]

theorem bareAll_eq_map (es : List Expr) : bareAll es = es.map Expr.bare := by
  induction es with
  | nil => rfl
  | cons e es ih => rw [bareAll, ih, List.map_cons]

end BoardPython
