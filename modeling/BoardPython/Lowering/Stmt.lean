import BoardPython.Lowering.Body
import BoardPython.Lowering.Expr

/-! Lowering statements. A statement that fails is reported, and lowering goes on with the next one;
what it has emitted stays. -/
namespace BoardPython.Lowering

open Ir (Label Operand)

structure Environment where
  functions : FunctionTable
  strict : Bool
  operators : Operators

/-- What has become of the module outside of function bodies. -/
structure Progress where
  globals : List Ir.Global
  scope : Scope
  diagnostics : Diagnostics
  /-- How many statements there were of each kind that has blocks of its own. -/
  ifs : Nat
  whiles : Nat
  returns : Nat
  strings : Nat
  trace : List String
  deriving Repr

namespace Progress

def report (p : Progress) (e : Error) : Progress :=
  { p with diagnostics := p.diagnostics.report e }

end Progress

structure State where
  progress : Progress
  frame : Frame
  deriving Repr

namespace State

def context (env : Environment) (s : State) : Context where
  globals := s.progress.scope
  locals := s.frame.locals?
  globalNames := s.frame.globalNames
  functions := env.functions
  strict := env.strict
  operators := env.operators

def emission (s : State) : Emission := .start s.frame.body.register s.progress.strings

def absorb (s : State) (e : Emission) : State where
  progress :=
    { s.progress with
      globals := s.progress.globals ++ e.globals
      diagnostics := ⟨s.progress.diagnostics.items ++ e.warnings⟩
      strings := e.strings
      trace := s.progress.trace ++ e.trace }
  frame :=
    { s.frame with
      body := { s.frame.body.append s.frame.body.current e.instrs with register := e.register } }

def mapBody (f : Body → Body) (s : State) : State :=
  { s with frame := { s.frame with body := f s.frame.body } }

def target? (s : State) (name : String) : Option Symbol :=
  if s.frame.isLocal name then s.frame.locals.find? name else s.progress.scope.find? name

end State

abbrev Lower := EStateM Error State

namespace Lower

def fail {α : Type} (position : Position) (fault : Fault) : Lower α :=
  throw (.located position fault)

def emit {α : Type} (x : Emit α) : Lower α := fun s =>
  match x s.emission with
  | .ok a e => .ok a (s.absorb e)
  | .error err e => .error err (s.absorb e)

def value (env : Environment) (e : Expr) : Lower Value := do
  emit (lower ((← get).context env) e)

/-- Lowers the condition of a branch. A number holds if it is not zero. -/
def condition (env : Environment) (e : Expr) : Lower Operand := do
  match ← value env e with
  | .bool x => return x
  | .i8 x => emit (Emit.emit (.icmp .ne x (.const (.int 8 0))))
  | .i16 x => emit (Emit.emit (.icmp .ne x (.const (.int 16 0))))
  | .f32 x =>
    emit (Emit.emit (.fcmp .ne x (.const (.float (.finite false 0 Number.Format.single.least)))))
  | v => fail e.position (.conditionType v.type)

def modifyBody (f : Body → Body) : Lower Unit := modify (State.mapBody f)

def nextIf : Lower Nat :=
  modifyGet fun s =>
    let n := s.progress.ifs + 1
    (n, { s with progress := { s.progress with ifs := n } })

def nextWhile : Lower Nat :=
  modifyGet fun s =>
    let n := s.progress.whiles + 1
    (n, { s with progress := { s.progress with whiles := n } })

def nextReturn : Lower Nat :=
  modifyGet fun s =>
    let n := s.progress.returns + 1
    (n, { s with progress := { s.progress with returns := n } })

/-- Whether a value can be kept as one of a type, and how. Integers are brought to its width. -/
def coerce? (v : Value) (t : ValueType) : Option (Emit Operand) :=
  match v, t with
  | .i8 x, .i8 => some (return x)
  | .i8 x, .i16 => some (resize x 8 16)
  | .i16 x, .i8 => some (resize x 16 8)
  | .i16 x, .i16 => some (return x)
  | .f32 x, .f32 => some (return x)
  | .str x, .str => some (return x)
  | .bool x, .bool => some (return x)
  | _, _ => none

def store (pos : Position) (symbol : Symbol) (v : Value) : Lower Unit := do
  if symbol.isImmutable then fail pos (.assignedConstant symbol.name)
  match symbol.address?, coerce? v symbol.type with
  | some address, some x => emit (do Emit.perform (.store (← x) address))
  | _, _ => fail pos (.assignedType symbol.name v.type symbol.type)

def declareLocal (name : String) (type : ValueType) : Lower Symbol :=
  modifyGet fun s =>
    let (body, register) := s.frame.body.alloca type.ir
    let symbol : Symbol := ⟨name, type, .stack register⟩
    (symbol, { s with frame :=
      { s.frame with body := body, locals := s.frame.locals.declare symbol } })

def declareGlobal (name : String) (type : ValueType) (initial : Ir.Constant) : Lower Symbol :=
  modifyGet fun s =>
    let symbol : Symbol := ⟨name, type, .module false⟩
    (symbol, { s with progress :=
      { s.progress with
        globals := s.progress.globals ++ [⟨name, initial, false, false, false⟩]
        scope := s.progress.scope.declare symbol } })

def constant? (v : Value) : Option Ir.Constant :=
  match v.operand? with
  | some (.const c) => some c
  | _ => none

/-- The first assignment to a global variable. Outside of functions, a constant of the variable's
type becomes the initial value, and nothing is stored. -/
def assignNewGlobal (env : Environment) (pos : Position) (name : String) (type : ValueType)
    (zero : Ir.Constant) (v : Value) : Lower Unit := do
  if (env.functions.find? name).isSome then fail pos (.definedAsFunction name)
  let outside := (← get).frame.signature.isNone
  match constant? v, outside, decide (v.type = type) with
  | some c, true, true => let _ ← declareGlobal name type c
  | _, _, _ => store pos (← declareGlobal name type zero) v

/-- The type that a hint gives to a variable, or else the type of its value. -/
def hintedType (pos : Position) (hint : Option String) (v : Value) : Lower ValueType :=
  match hint with
  | none => return v.type
  | some hint =>
    match ValueType.ofHint? hint with
    | some t => return t
    | none => fail pos (.unknownHint hint)

/-- Assigns to a variable, which is made if it does not exist. -/
def assign (env : Environment) (pos : Position) (name : String) (hint : Option String)
    (e : Expr) : Lower Unit := do
  let v ← value env e
  let type ← hintedType pos hint v
  match type.zero? with
  | none => fail pos (.assignedNone name)
  | some zero =>
    let s ← get
    match s.target? name with
    | some symbol =>
      if hint.isSome ∧ type ≠ symbol.type then fail pos (.declaredAs name symbol.type)
      store pos symbol v
    | none =>
      if s.frame.isLocal name then store pos (← declareLocal name type) v
      else assignNewGlobal env pos name type zero v

def augment (env : Environment) (pos : Position) (name : String) (op : Token.Kind) (e : Expr) :
    Lower Unit := do
  match (← get).target? name with
  | none => fail pos (.undefinedName name)
  | some symbol => store pos symbol (← value env (.binary pos op (.name pos name) e))

def returned (pos : Position) (f : Signature) (v : Value) : Lower (Option Operand) :=
  match f.result, v with
  | .void, .void => return none
  | .void, v => fail pos (.returnsOther f.name f.result v.type)
  | _, .void => fail pos (.returnsOther f.name f.result .void)
  | t, v =>
    match coerce? v t with
    | some x => return some (← emit x)
    | none => fail pos (.returnedType f.name v.type t)

/-- Returns from the function. What follows goes to a block that nothing branches to. -/
def ret (env : Environment) (pos : Position) (e : Option Expr) : Lower Unit := do
  match (← get).frame.signature with
  | none => fail pos .returnOutsideFunction
  | some f =>
    let v ← match e with
      | none => pure Value.void
      | some e => value env e
    let x ← returned pos f v
    let label := Label.afterReturn (← nextReturn)
    modifyBody fun b => ((b.close (.ret x)).create [label]).goto label

def declareNames (pos : Position) : List String → Lower Unit
  | [] => return ()
  | name :: names => do
    if ((← get).frame.locals.find? name).isSome then fail pos (.assignedBeforeGlobal name)
    modify fun s =>
      { s with frame := { s.frame with globalNames := s.frame.globalNames ++ [name] } }
    declareNames pos names

def reported (x : Lower Unit) : Lower Unit := fun s =>
  match x s with
  | .ok a s => .ok a s
  | .error e s => .ok () { s with progress := s.progress.report e }

mutual

def stmt (env : Environment) : Stmt → Lower Unit
  | .evaluate _ e => do let _ ← value env e
  | .pass _ => return ()
  | .globals pos names => do
    if (← get).frame.signature.isSome then declareNames pos names
  | .assign pos name hint e => assign env pos name hint e
  | .augment pos name op e => augment env pos name op e
  | .ret pos e => ret env pos e
  | .branch _ cond yes no => do
    let id ← nextIf
    let x ← condition env cond
    modifyBody fun b =>
      ((b.create [.ifThen id, .ifElse id, .ifMerge id]).close
        (.branch x (.ifThen id) (.ifElse id))).goto (.ifThen id)
    stmts env yes
    modifyBody fun b => (b.finish (.jump (.ifMerge id))).goto (.ifElse id)
    stmts env no
    modifyBody fun b => (b.finish (.jump (.ifMerge id))).goto (.ifMerge id)
  | .loop _ cond body => do
    let id ← nextWhile
    modifyBody fun b =>
      ((b.create [.whileCond id, .whileBody id, .whileExit id]).close
        (.jump (.whileCond id))).goto (.whileCond id)
    let x ← condition env cond
    modifyBody fun b =>
      (b.close (.branch x (.whileBody id) (.whileExit id))).goto (.whileBody id)
    stmts env body
    modifyBody fun b => (b.finish (.jump (.whileCond id))).goto (.whileExit id)
  | .define pos name _ _ _ => fail pos (.nestedFunction name)

/-- Lowers statements one after the other, and reports those that fail. -/
def stmts (env : Environment) : List Stmt → Lower Unit
  | [] => return ()
  | s :: rest => do
    reported (stmt env s)
    stmts env rest

end

end Lower

end BoardPython.Lowering
