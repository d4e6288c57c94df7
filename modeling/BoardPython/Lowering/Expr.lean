import BoardPython.Lowering.Operators
import BoardPython.Tree

/-! Lowering expressions. -/
namespace BoardPython.Lowering

open Ir (Callee Operand Ty)
open Token (Kind)

structure Context where
  globals : Scope
  locals : Option Scope
  globalNames : List String
  functions : FunctionTable
  strict : Bool
  operators : Operators

namespace Context

/-- The variable that a name means. Names declared global are not looked for in the local
scope. -/
def resolve? (c : Context) (name : String) : Option Symbol :=
  Scope.resolve? (if c.globalNames.contains name then none else c.locals) c.globals name

end Context

def describe : Expr → String
  | .number _ _ raw => "number " ++ raw
  | .string .. => "string literal"
  | .name _ id => s!"'{id}'"
  | .bool .. | .none _ | .ellipsis _ => "constant"
  | .binary _ op _ _ => s!"binary '{op.name}' expression"
  | .unary _ op _ => s!"unary '{op.name}' expression"
  | .compare .. => "comparison"
  | .logical _ op _ _ => s!"boolean '{op.name}' expression"
  | .call .. => "call result"
  | .member _ _ field => s!"attribute '{field}'"
  | .list .. => "list display"
  | .lambda .. => "lambda"

def wrap16 (n : Int) : Int := Int.bmod n 65536

/-- A numeric literal, negated or not. All integers have sixteen bits. -/
def number (pos : Position) (value : Number.Numeral) (raw : String) (negated : Bool) :
    Emit Value :=
  match value with
  | .int n => return .i16 (.const (.int 16 (wrap16 (if negated then -n else n))))
  | .float x => return .f32 (.const (.float ((if negated then x.negate else x).round .single)))
  | .imaginary _ => Emit.fail pos (.imaginary raw)

/-- A negated literal is a literal. There are no other unary operators. -/
def negation (pos : Position) (op : Kind) (operand : Expr) : Emit Value :=
  match op, operand with
  | .minus, .number p value raw => number p value raw true
  | _, _ => Emit.fail pos (.unaryOperand op (describe operand))

/-- A string literal, whose bytes go to a global of their own. -/
def stringValue (c : Context) (pos : Position) (value : Bytes) : Emit Value :=
  if c.locals.isSome then return .str (← Emit.stringLiteral value)
  else Emit.fail pos .stringOutsideFunction

def variableValue (c : Context) (pos : Position) (name : String) : Emit Value :=
  match c.resolve? name with
  | none => Emit.fail pos (.undefinedName name)
  | some s =>
    match s.address? with
    | none => return .void
    | some address => return .ofOperand s.type (← Emit.emit (.load s.type.ir address))

def resize (x : Operand) (bits width : Nat) : Emit Operand :=
  if width = bits then return x
  else Emit.emit (.convert (if width < bits then .trunc else .sext) x (.int width))

/-- Whether a value can be passed for a parameter, and how. Sixteen bits are never widened. -/
def pass? (v : Value) (param : Ty) : Option (Emit Operand) :=
  match v, param with
  | .i8 x, .int bits => some (resize x 8 bits)
  | .i16 x, .int bits => if bits ≤ 16 then some (resize x 16 bits) else none
  | .f32 x, .float => some (return x)
  | .str x, .pointer (.int 8) => some (return x)
  | _, _ => none

def passArgument (pos : Position) (function : String) (i : Nat) (v : Value) (param : Ty) :
    Emit Operand :=
  match pass? v param with
  | some x => x
  | none => Emit.fail pos (.argument i function v.type param)

/-- The function that a name means: the one of that name, or the overload for the first
argument. -/
def function (c : Context) (pos : Position) (name : String) (first : Option ValueType) :
    Emit Signature :=
  match c.functions.find? name with
  | some s => return s
  | none =>
    match first with
    | none => Emit.fail pos (.undefinedFunction name)
    | some t =>
      match c.functions.find? (FunctionTable.overloadKey name t) with
      | some s => return s
      | none => Emit.fail pos (.undefinedOverload name t)

/-- A call with the wrong number of arguments is an error or, unless the context is strict, a
warning. -/
def checkArity (c : Context) (pos : Position) (name : String) (params args : Nat) : Emit Unit :=
  if args = params then return ()
  else if c.strict then Emit.fail pos (.arity name params args)
  else Emit.warn pos (Fault.arityDetail name params args)

def callValue (pos : Position) (result : Ty) (x : Operand) : Emit Value :=
  match result with
  | .int 8 => return .i8 x
  | .int 16 => return .i16 x
  | .int bits => Emit.fail pos (.resultWidth bits)
  | .float => return .f32 x
  | _ => Emit.fail pos (.resultType result)

def call (pos : Position) (f : Callee) (args : List Operand) : Emit Value := do
  if f.result = .void then
    Emit.perform (.call true f args)
    return .void
  else callValue pos f.result (← Emit.emit (.call true f args))

mutual

/-- Lowers an expression. Operands and arguments are lowered once, from left to right. -/
def lower (c : Context) : Expr → Emit Value
  | .number pos value raw => number pos value raw false
  | .string pos value => stringValue c pos value
  | .bool _ b => return .bool (.const (.bool b))
  | .none _ => return .void
  | .ellipsis pos => Emit.fail pos .ellipsis
  | .unary pos op operand => negation pos op operand
  | .name pos id => variableValue c pos id
  | .binary pos op left right => do
    let x ← lower c left
    let y ← lower c right
    Emit.locate pos (c.operators.binary op x y)
  | .compare pos ops operands => do
    let values ← lowerAll c operands
    Emit.locate pos (c.operators.compare ops values)
  | .call pos (.name p name) [] => do
    let f ← function c p name none
    checkArity c pos name f.callee.params.length 0
    call pos f.callee []
  | .call pos (.name p name) (arg :: args) => do
    -- The first argument comes before the function, which it may select.
    let first ← lower c arg
    let f ← function c p name (some first.type)
    checkArity c pos name f.callee.params.length (args.length + 1)
    match f.callee.params with
    | [] =>
      let _ ← lowerAll c args
      call pos f.callee []
    | param :: params =>
      let x ← passArgument arg.position name 1 first param
      let xs ← lowerArguments c name 2 params args
      call pos f.callee (x :: xs)
  | .call pos callee _ => Emit.fail pos (.callee (describe callee))
  | .logical pos op left right => Emit.fail pos (.expression (describe (.logical pos op left right)))
  | .member pos value field => Emit.fail pos (.expression (describe (.member pos value field)))
  | .list pos elements => Emit.fail pos (.expression (describe (.list pos elements)))
  | .lambda pos params body => Emit.fail pos (.expression (describe (.lambda pos params body)))

def lowerAll (c : Context) : List Expr → Emit (List Value)
  | [] => return []
  | e :: es => do
    let v ← lower c e
    let vs ← lowerAll c es
    return v :: vs

/-- Lowers and passes the arguments of a call from number `i` on. Those beyond the parameters are
lowered but not passed. -/
def lowerArguments (c : Context) (name : String) (i : Nat) (params : List Ty) :
    List Expr → Emit (List Operand)
  | [] => return []
  | e :: es => do
    let v ← lower c e
    match params with
    | [] => lowerArguments c name (i + 1) [] es
    | param :: params =>
      let x ← passArgument e.position name i v param
      let xs ← lowerArguments c name (i + 1) params es
      return x :: xs

end

end BoardPython.Lowering
