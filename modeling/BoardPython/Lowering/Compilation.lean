import BoardPython.Board
import BoardPython.Lowering.Builtin
import BoardPython.Lowering.Stmt
import BoardPython.Parser.Stmt

/-! Compilations: source units that are lowered one after the other to one module. -/
namespace BoardPython.Lowering

open Ir (Callee Operand)

structure Compilation where
  board : Board
  /-- Whether a wrong number of arguments is an error. -/
  strict : Bool
  operators : Operators
  /-- The functions of the module; that for top-level code gets its body in the end. -/
  functions : List Ir.Function
  table : FunctionTable
  progress : Progress
  top : Frame
  defined : Nat
  log : List String

/-- The function that runs the code outside of functions. -/
def initName : String := "__dsp_init"

/-- The function that the board runs first. It runs the code outside of functions before its own. -/
def setupName : String := "setup"

/-- The code outside of functions follows the builtin functions. -/
def initCallee : Callee := ⟨Builtin.all.length, initName, [], .void⟩

/-- A function that is declared and has its body still to be lowered. -/
structure Definition where
  signature : Signature
  params : List String
  body : List Stmt

namespace Definition

def spill (name : String) (type : ValueType) : Lower Unit := do
  match (← Lower.declareLocal name type).address? with
  | some address =>
    Lower.emit (Emit.perform (.store (.param name type.ir) address))
  | none => return ()

def spillAll : List (String × ValueType) → Lower Unit
  | [] => return ()
  | (name, type) :: rest => do
    spill name type
    spillAll rest

/-- Lowers a function. One that ends without a return gives the zero of its type. -/
def lower (env : Environment) (d : Definition) : Lower Unit := do
  if d.signature.name = setupName then
    Lower.emit (Emit.perform (.call false initCallee []))
  spillAll (d.params.zip d.signature.params)
  Lower.stmts env d.body
  Lower.modifyBody (·.finish (.ret (d.signature.result.zero?.map .const)))

end Definition

inductive Item where
  | definition (d : Definition)
  | statement (s : Stmt)

/-- The types of parameters. One without a hint is an integer. `seen` are the names before. -/
def paramTypes (function : String) : List String → List Param → Except Error (List ValueType)
  | _, [] => return []
  | seen, p :: ps => do
    if seen.contains p.name then
      throw (.located p.pos (.duplicateParam p.name function))
    let type ← match p.hint with
      | none => pure .i16
      | some hint =>
        match ValueType.ofHint? hint with
        | none => throw (.located p.pos (.paramType hint))
        | some .void => throw (.located p.pos (.paramType hint))
        | some t => pure t
    return type :: (← paramTypes function (p.name :: seen) ps)

/-- The type of the result of a function. One without a hint has none. -/
def resultType (pos : Position) (returns : Option String) : Except Error ValueType :=
  match returns with
  | none => return .void
  | some hint =>
    match ValueType.ofHint? hint with
    | some t => return t
    | none => throw (.located pos (.unknownResult hint))

namespace Compilation

def start (board : Board) (strict : Bool) (operators : Operators) : Compilation where
  board := board
  strict := strict
  operators := operators
  functions := Builtin.all.map Builtin.declaration ++ [⟨initName, .void, [], true, []⟩]
  table := Builtin.table
  progress := ⟨Builtin.globals, Builtin.scope, .empty, 0, 0, 0, 0, []⟩
  top := .top
  defined := 0
  log := []

def environment (c : Compilation) : Environment := ⟨c.table, c.strict, c.operators⟩

def diagnostics (c : Compilation) : Diagnostics := c.progress.diagnostics

def report (c : Compilation) (e : Error) : Compilation :=
  { c with progress := c.progress.report e }

def run {α : Type} (c : Compilation) (frame : Frame) (x : Lower α) :
    Except Error α × Compilation × Frame :=
  match x ⟨c.progress, frame⟩ with
  | .ok a s => (.ok a, { c with progress := s.progress }, s.frame)
  | .error e s => (.error e, { c with progress := s.progress }, s.frame)

/-- Adds a function to the module, and to the table unless the key is taken. Also says whether it
was not. -/
def addFunction (c : Compilation) (key name : String) (params : List ValueType)
    (result : ValueType) (declaration : Ir.Function) : Compilation × Signature × Bool :=
  let signature : Signature :=
    ⟨name, params, result,
      ⟨c.functions.length, declaration.name, declaration.params.map (·.type), declaration.result⟩⟩
  ({ c with
      functions := c.functions ++ [declaration]
      table := c.table.declare key signature },
    signature, (c.table.find? key).isNone)

def define (c : Compilation) (pos : Position) (name : String) (params : List Param)
    (returns : Option String) (body : List Stmt) : Except Error (Compilation × Definition) := do
  if (c.table.find? name).isSome then throw (.located pos (.functionDefined name))
  if name = initName then throw (.located pos (.reserved name))
  let result ← resultType pos returns
  let types ← paramTypes name [] params
  let names := params.map (·.name)
  let irParams := (names.zip types).map fun (name, t) => (⟨some name, t.ir⟩ : Ir.Param)
  let (c, signature, _) :=
    c.addFunction name name types result ⟨name, result.ir, irParams, false, []⟩
  return ({ c with defined := c.defined + 1 }, ⟨signature, names, body⟩)

/-- Declares the functions of a unit, so that calls can come before definitions. Those that cannot
be declared are reported and left out. -/
def declareAll (c : Compilation) : List Stmt → Compilation × List Item
  | [] => (c, [])
  | .define pos name params returns body :: rest =>
    match c.define pos name params returns body with
    | .ok (c, d) =>
      let (c, items) := c.declareAll rest
      (c, .definition d :: items)
    | .error e => (c.report e).declareAll rest
  | s :: rest =>
    let (c, items) := c.declareAll rest
    (c, .statement s :: items)

def lowerDefinition (c : Compilation) (d : Definition) : Compilation :=
  let (_, c, frame) := c.run (.ofSignature d.signature) (d.lower c.environment)
  { c with functions :=
    c.functions.modify d.signature.callee.id fun f => { f with blocks := frame.body.blocks } }

def lowerTop (c : Compilation) (s : Stmt) : Compilation :=
  let (_, c, frame) := c.run c.top (Lower.reported (Lower.stmt c.environment s))
  { c with top := frame }

def lowerItem (c : Compilation) : Item → Compilation
  | .definition d => c.lowerDefinition d
  | .statement s => c.lowerTop s

def summary (c : Compilation) : String :=
  if c.diagnostics.hasErrors then
    s!"lowering failed with {c.diagnostics.errorCount} error(s)"
  else
    s!"lowered {c.defined} function(s), {c.progress.scope.size} global(s) for {c.board.name}"

/-- Lowers a unit. It is accepted if there has been no error in it or in the units before. -/
def lowerUnit (c : Compilation) (unit : List Stmt) : Compilation :=
  let (c, items) := c.declareAll unit
  let c := items.foldl lowerItem c
  let c := { c with top := { c.top with body := c.top.body.finish (.ret none) } }
  { c with log := c.log ++ [c.summary] }

def toModule (c : Compilation) : Ir.Module where
  dataLayout := c.board.dataLayout
  triple := c.board.triple
  globals := c.progress.globals
  functions :=
    c.functions.modify initCallee.id fun f => { f with blocks := c.top.body.blocks }

def module? (c : Compilation) : Option Ir.Module :=
  if c.diagnostics.hasErrors then none else some c.toModule

/-- Parses and lowers a source text. Nothing changes if its syntax is wrong. -/
def addSource (c : Compilation) (source : Bytes) : Except Parser.Stop Compilation :=
  let outcome := parseSource source
  match outcome.stop with
  | some stop => .error stop
  | none => .ok (c.lowerUnit outcome.stmts)

/-- Adds a module global, and a name for it unless the name is taken. A global without a value is
only a name. -/
def addGlobal (c : Compilation) (name : String) (type : ValueType) (immutable : Bool) :
    Compilation × Bool :=
  let storage : Storage := if type.zero?.isSome then .module immutable else .nowhere
  let added := type.zero?.toList.map fun zero => (⟨name, zero, immutable, false, false⟩ : Ir.Global)
  ({ c with progress :=
      { c.progress with
        globals := c.progress.globals ++ added
        scope := c.progress.scope.declare ⟨name, type, storage⟩ } },
    (c.progress.scope.find? name).isNone)

end Compilation

/-- Adds a stack cell, and a local name for it unless the name is taken. A variable without a value
is only a name. -/
def Frame.addLocal (f : Frame) (name : String) (type : ValueType) : Frame × Bool :=
  let isNew := (f.locals.find? name).isNone
  match type.zero? with
  | none => ({ f with locals := f.locals.declare ⟨name, type, .nowhere⟩ }, isNew)
  | some _ =>
    let (body, register) := f.body.alloca type.ir
    ({ f with body := body, locals := f.locals.declare ⟨name, type, .stack register⟩ }, isNew)

end BoardPython.Lowering
