import BoardPython.Number.Numeral
import BoardPython.Token

/-! Syntax trees. Every node knows the position it is reported at. Operators are the kinds of
their tokens. -/
namespace BoardPython

open Token (Kind)

inductive Expr where
  | number (pos : Position) (value : Number.Numeral) (raw : String)
  | string (pos : Position) (value : Bytes)
  | name (pos : Position) (id : String)
  | bool (pos : Position) (value : Bool)
  | none (pos : Position)
  | ellipsis (pos : Position)
  | binary (pos : Position) (op : Kind) (left right : Expr)
  | unary (pos : Position) (op : Kind) (operand : Expr)
  | logical (pos : Position) (op : Kind) (left right : Expr)
  /-- A comparison chain: one operand more than operators. -/
  | compare (pos : Position) (ops : List Kind) (operands : List Expr)
  | call (pos : Position) (callee : Expr) (args : List Expr)
  | member (pos : Position) (value : Expr) (field : String)
  | list (pos : Position) (elements : List Expr)
  | lambda (pos : Position) (params : List String) (body : Expr)
  deriving Repr, Inhabited, BEq

namespace Expr

def position : Expr → Position
  | number pos .. | string pos .. | name pos .. | bool pos .. | none pos | ellipsis pos
  | binary pos .. | unary pos .. | logical pos .. | compare pos .. | call pos ..
  | member pos .. | list pos .. | lambda pos .. => pos

end Expr

structure Param where
  pos : Position
  name : String
  hint : Option String
  deriving Repr, DecidableEq, BEq

inductive Stmt where
  | define (pos : Position) (name : String) (params : List Param) (returns : Option String)
      (body : List Stmt)
  | assign (pos : Position) (name : String) (hint : Option String) (value : Expr)
  /-- `name op= value`; `op` is the operator without the equals sign. -/
  | augment (pos : Position) (name : String) (op : Kind) (value : Expr)
  | ret (pos : Position) (value : Option Expr)
  /-- A chain of further conditions nests in `orElse`. -/
  | branch (pos : Position) (cond : Expr) (body orElse : List Stmt)
  | loop (pos : Position) (cond : Expr) (body : List Stmt)
  | evaluate (pos : Position) (value : Expr)
  | pass (pos : Position)
  | globals (pos : Position) (names : List String)
  deriving Repr, Inhabited, BEq

namespace Stmt

def position : Stmt → Position
  | define pos .. | assign pos .. | augment pos .. | ret pos .. | branch pos .. | loop pos ..
  | evaluate pos .. | pass pos | globals pos .. => pos

end Stmt

end BoardPython
