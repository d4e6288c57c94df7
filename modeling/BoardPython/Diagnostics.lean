import BoardPython.Lowering.Fault
import BoardPython.SyntaxError

/-! Errors and warnings of a compilation, collected in the order in which they arise, so that all
of them can be reported at once. -/
namespace BoardPython

inductive Severity where
  | error
  | warning
  deriving DecidableEq, Repr

namespace Severity

def text : Severity → String
  | error => "error"
  | warning => "warning"

/-- The severities have codes; other codes are of no known severity. -/
def ofCode? : Int → Option Severity
  | 0 => some error
  | 1 => some warning
  | _ => none

def nameOfCode (code : Int) : String := ((ofCode? code).map text).getD "unknown"

end Severity

inductive Origin where
  | grammar
  | lowering (category : Lowering.Category)
  | elsewhere
  deriving DecidableEq, Repr

/-- An error as diagnostics see it: its text, and its text without the position in front, if it
can tell them apart. -/
structure Cause where
  text : String
  message : Option String
  origin : Origin
  deriving DecidableEq, Repr

namespace Cause

def ofText (text : String) : Cause := ⟨text, none, .elsewhere⟩

def ofError (e : Lowering.Error) : Cause :=
  ⟨e.text, some e.fault.message, .lowering e.fault.category⟩

/-- A syntax error does not tell its message from its text. -/
def ofSyntaxError (e : SyntaxError) : Cause := ⟨e.text, none, .grammar⟩

end Cause

structure Diagnostic where
  severity : Severity
  message : String
  line : Int
  column : Int
  cause : Option Cause
  deriving DecidableEq, Repr

namespace Diagnostic

def text (file : String) (d : Diagnostic) : String :=
  s!"{d.severity.text}[{file}:{d.line}:{d.column}]: {d.message}"

/-- The diagnostic as an error: that which it was made from, or else one with its place and its
message. -/
def toCause (d : Diagnostic) : Cause :=
  d.cause.getD (.ofText s!"{d.line}:{d.column}: {d.message}")

end Diagnostic

structure Diagnostics where
  items : List Diagnostic
  deriving DecidableEq, Repr

namespace Diagnostics

def empty : Diagnostics := ⟨[]⟩

def push (ds : Diagnostics) (d : Diagnostic) : Diagnostics := ⟨ds.items ++ [d]⟩

def error (ds : Diagnostics) (line column : Int) (message : String) : Diagnostics :=
  ds.push ⟨.error, message, line, column, none⟩

def warning (ds : Diagnostics) (line column : Int) (message : String) : Diagnostics :=
  ds.push ⟨.warning, message, line, column, none⟩

/-- Records an error at a place, which need not be the one the error itself names. -/
def add (ds : Diagnostics) (line column : Int) (cause : Cause) : Diagnostics :=
  ds.push ⟨.error, cause.message.getD cause.text, line, column, some cause⟩

def report (ds : Diagnostics) (e : Lowering.Error) : Diagnostics :=
  let p := e.position.getD ⟨0, 0⟩
  ds.add p.line p.column (.ofError e)

def errors (ds : Diagnostics) : List Diagnostic := ds.items.filter (·.severity == .error)

def errorCount (ds : Diagnostics) : Nat := ds.errors.length

def hasErrors (ds : Diagnostics) : Bool := ds.errorCount ≠ 0

/-- All errors as one, if there are any: their texts on lines of their own. -/
def joined? (ds : Diagnostics) : Option String :=
  if ds.hasErrors then some ("\n".intercalate (ds.errors.map fun d => d.toCause.text)) else none

def format (ds : Diagnostics) (file : String) : String :=
  "\n".intercalate (ds.items.map (Diagnostic.text file))

end Diagnostics

end BoardPython
