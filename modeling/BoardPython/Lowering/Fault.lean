import BoardPython.Lowering.ValueType
import BoardPython.Token

/-! What a program can have wrong with it beyond its grammar. -/
namespace BoardPython.Lowering

open Token (Kind)

inductive Category where
  | name | undefinedFunction | literal | context | unaryOperand | callee | argumentType
  | expression | operator | returnType | arity | typeMismatch | statement | redeclared
  deriving DecidableEq, Repr

namespace Category

def text : Category → String
  | name => "name error"
  | undefinedFunction => "undefined function"
  | literal => "unsupported literal"
  | context => "unsupported context"
  | unaryOperand => "unsupported unary operand"
  | callee => "unsupported callee"
  | argumentType => "unsupported argument type"
  | expression => "unsupported expression"
  | operator => "unsupported operator"
  | returnType => "unsupported return type"
  | arity => "arity mismatch"
  | typeMismatch => "type mismatch"
  | statement => "unsupported statement"
  | redeclared => "redeclared"

end Category

inductive Fault where
  | undefinedName (name : String)
  | undefinedFunction (name : String)
  | undefinedOverload (name : String) (first : ValueType)
  | ellipsis
  | imaginary (raw : String)
  | stringOutsideFunction
  | unaryOperand (op : Kind) (what : String)
  | callee (what : String)
  | argument (number : Nat) (function : String) (type : ValueType) (param : Ir.Ty)
  | expression (what : String)
  | operandTypes (op : Kind) (left right : ValueType)
  | operandType (op : Kind) (type : ValueType)
  | operandCount (operands ops : Nat)
  | comparison (op : Kind)
  /-- An operator that the operators in use do not want, and why. -/
  | refused (reason : Option String)
  | resultWidth (bits : Nat)
  | resultType (type : Ir.Ty)
  | arity (function : String) (params args : Nat)
  | unknownResult (hint : String)
  | paramType (hint : String)
  | unknownHint (hint : String)
  | assignedNone (name : String)
  | assignedConstant (name : String)
  | assignedType (name : String) (type expected : ValueType)
  | returnsOther (function : String) (expected type : ValueType)
  | returnedType (function : String) (type expected : ValueType)
  | conditionType (type : ValueType)
  | returnOutsideFunction
  | nestedFunction (name : String)
  | functionDefined (name : String)
  | reserved (name : String)
  | duplicateParam (name function : String)
  | declaredAs (name : String) (type : ValueType)
  | definedAsFunction (name : String)
  | assignedBeforeGlobal (name : String)
  deriving DecidableEq, Repr

namespace Fault

def category : Fault → Category
  | undefinedName _ => .name
  | undefinedFunction _ | undefinedOverload .. => .undefinedFunction
  | ellipsis | imaginary _ => .literal
  | stringOutsideFunction => .context
  | unaryOperand .. => .unaryOperand
  | callee _ => .callee
  | argument .. => .argumentType
  | expression _ => .expression
  | operandTypes .. | operandType .. | operandCount .. | comparison _ | refused _ => .operator
  | resultWidth _ | resultType _ => .returnType
  | arity .. => .arity
  | unknownResult _ | paramType _ | unknownHint _ | assignedNone _ | assignedConstant _
  | assignedType .. | returnsOther .. | returnedType .. | conditionType _ => .typeMismatch
  | returnOutsideFunction | nestedFunction _ => .statement
  | functionDefined _ | reserved _ | duplicateParam .. | declaredAs .. | definedAsFunction _
  | assignedBeforeGlobal _ => .redeclared

/-- What a call with the wrong number of arguments is told, be it an error or a warning. -/
def arityDetail (function : String) (params args : Nat) : String :=
  s!"{function}() takes {params} argument(s) but {args} were given"

def detail? : Fault → Option String
  | undefinedName name => some s!"name '{name}' is not defined"
  | undefinedFunction name => some s!"function '{name}' is not defined"
  | undefinedOverload name first =>
    some s!"function '{name}' is not defined for a {first.name} argument"
  | ellipsis => some "constant value Ellipsis is not supported"
  | imaginary raw => some s!"imaginary number {raw} is not supported"
  | stringOutsideFunction => some "string literals are only supported inside a function body"
  | unaryOperand op what =>
    some (s!"unary '{op.name}' is only supported as negation of a numeric literal, " ++
      s!"not on {what}")
  | callee what => some s!"cannot call {what}, only plain function names are callable"
  | argument number function type param =>
    some (s!"argument {number} of {function}(): " ++
      s!"cannot pass {type.name} value as {param.text}")
  | expression what => some s!"{what} is not supported"
  | operandTypes op left right => some s!"'{op.name}' between {left.name} and {right.name}"
  | operandType op type => some s!"'{op.name}' on {type.name} operands"
  | operandCount operands ops => some s!"{operands} operands for {ops} comparisons"
  | comparison op => some s!"comparison '{op.name}'"
  | refused reason => reason
  | resultWidth bits => some s!"calls returning {bits}-bit integers are not supported"
  | resultType type => some s!"calls returning {type.text} are not supported"
  | arity function params args => some (arityDetail function params args)
  | unknownResult hint => some s!"unknown return type '{hint}'"
  | paramType hint => some s!"unsupported parameter type '{hint}'"
  | unknownHint hint => some s!"unknown type annotation '{hint}'"
  | assignedNone name => some s!"cannot assign a None value to '{name}'"
  | assignedConstant name => some s!"cannot assign to constant '{name}'"
  | assignedType name type expected =>
    some s!"assignment to '{name}': cannot use {type.name} value as {expected.name}"
  | returnsOther function expected type =>
    some s!"{function}() returns {expected.name}, got {type.name}"
  | returnedType function type expected =>
    some s!"return from {function}(): cannot use {type.name} value as {expected.name}"
  | conditionType type => some s!"{type.name} value cannot be used as a condition"
  | returnOutsideFunction => some "'return' outside function"
  | nestedFunction name => some s!"nested function '{name}' is not supported"
  | functionDefined name => some s!"function '{name}' is already defined"
  | reserved name => some s!"'{name}' is reserved"
  | duplicateParam name function => some s!"duplicate parameter '{name}' in {function}()"
  | declaredAs name type => some s!"'{name}' is already declared as {type.name}"
  | definedAsFunction name => some s!"'{name}' is already defined as a function"
  | assignedBeforeGlobal name =>
    some s!"name '{name}' is assigned to before global declaration"

def message (f : Fault) : String :=
  match f.detail? with
  | some detail => f.category.text ++ ": " ++ detail
  | none => f.category.text

end Fault

structure Error where
  position : Option Position
  fault : Fault
  deriving DecidableEq, Repr

namespace Error

def located (position : Position) (fault : Fault) : Error := ⟨some position, fault⟩

def locate (position : Position) (e : Error) : Error :=
  { e with position := some (e.position.getD position) }

def text (e : Error) : String :=
  match e.position with
  | some p => p.text ++ ": " ++ e.fault.message
  | none => e.fault.message

end Error

end BoardPython.Lowering
