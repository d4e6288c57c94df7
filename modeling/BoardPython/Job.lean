import BoardPython.Ir.Text
import BoardPython.Lowering.Compilation
import BoardPython.Toolchain

/-! Jobs: a command for a list of source files. -/
namespace BoardPython

inductive Command where
  | build
  | flash
  | emit
  deriving DecidableEq, Repr

namespace Command

def ofName? (name : String) : Option Command :=
  if name = "build" then some build
  else if name = "flash" then some flash
  else if name = "emit" then some emit
  else none

end Command

structure Options where
  command : String
  keepCode : Bool
  noOptimization : Bool
  strict : Bool
  watch : Bool
  verbose : Bool
  device : String
  board : String
  parallel : Int
  deriving DecidableEq, Repr

structure Job where
  command : Command
  /-- Whether code files stay after an image has been made of them. -/
  keepCode : Bool
  strict : Bool
  verbose : Bool
  device : String
  parallel : Nat
  toolchain : Toolchain
  deriving DecidableEq, Repr

namespace Job

inductive Fault where
  | unknownCommand (name : String)
  | unknownBoard (name : String)
  | unusable (fault : Toolchain.Fault)
  | unreadable (file : String) (reason : Files.Fault)
  | unwritable (file : String) (reason : Files.Fault)
  | grammar (file : String) (e : SyntaxError)
  | unfinished (file : String)
  | rejected (file : String) (errors : Nat)
  | tools (file : String) (fault : Toolchain.Fault)
  deriving DecidableEq, Repr

namespace Fault

def message : Fault → String
  | unknownCommand name => "unknown command " ++ Text.quote (Bytes.ofString name)
  | unknownBoard name => Board.unknown name
  | unusable fault => fault.message
  | unreadable file reason => reason.reading file
  | unwritable file reason => reason.opening file
  | grammar file e => file ++ ":" ++ e.text
  | unfinished file => file ++ ": out of tokens"
  | rejected file errors => s!"{file}: {errors} error(s)"
  | tools file fault => file ++ ": " ++ fault.message

def toolFault? : Fault → Option Toolchain.Fault
  | unusable fault => some fault
  | tools _ fault => some fault
  | _ => none

end Fault

/-- The job that options ask for. At least one file is worked on at a time. -/
def ofOptions (env : Toolchain.Variables) (o : Options) : Except Fault Job :=
  match Command.ofName? o.command, Board.find? o.board with
  | none, _ => .error (.unknownCommand o.command)
  | _, none => .error (.unknownBoard o.board)
  | some command, some board =>
    let toolchain := { Toolchain.ofVariables env board with optimize := !o.noOptimization }
    .ok ⟨command, o.keepCode, o.strict, o.verbose, o.device, o.parallel.toNat.max 1, toolchain⟩

def note (job : Job) (text : String) : Work Fault Unit :=
  if job.verbose then Work.log text else return ()

def display (file : String) (ds : Diagnostics) : Work Fault Unit :=
  modify fun w => w.tell (ds.format file ++ "\n")

def compilation (job : Job) (file : String) (source : Bytes) :
    Except Fault Lowering.Compilation :=
  match (Lowering.Compilation.start job.toolchain.board job.strict .numeric).addSource source with
  | .ok c => .ok c
  | .error (.fault e) => .error (.grammar file e)
  | .error .outOfTokens => .error (.unfinished file)

def codePath (file : String) : String := file ++ ".ll"

def store (file : String) (contents : Bytes) : Work Fault Unit := fun w =>
  match w.files.write file contents with
  | .ok files => .ok () { w with files := files }
  | .error reason => .error (.unwritable file reason) w

/-- Writes the code of a source file next to it. Errors and warnings are shown. -/
def emit (job : Job) (file : String) : Work Fault String := do
  match (← get).files.read file with
  | .error reason => throw (.unreadable file reason)
  | .ok source =>
    match job.compilation file source with
    | .error fault => throw fault
    | .ok c =>
      c.log.forM job.note
      match c.module? with
      | none =>
        display file c.diagnostics
        throw (.rejected file c.diagnostics.errorCount)
      | some m =>
        if c.diagnostics.items ≠ [] then display file c.diagnostics
        store (codePath file) (Bytes.ofString m.text)
        job.note s!"{file}: {m.functions.length} function(s)"
        return codePath file

/-- Puts the image of a file on the board, and removes it if that succeeds. -/
def upload (job : Job) (tools : Tools) (file image : String) : Work Fault Unit := do
  modify fun w => w.print s!"{job.device} << {file}..."
  ((job.toolchain.flash tools image job.device).mapError (.tools file)).afterError (·.print "\n")
  modify fun w => (w.erase image).print "[Done]\n"

/-- Makes the image of a code file, and puts it on the board if the command says so. -/
def link (job : Job) (tools : Tools) (file code : String) : Work Fault Unit := do
  let image ← (job.toolchain.build tools code).mapError (.tools file)
  if job.command = .flash then job.upload tools file image
  else Work.log ("built " ++ image)

def unit (job : Job) (tools : Tools) (file : String) : Work Fault Unit := do
  let code ← job.emit file
  if job.command = .emit then Work.log ("wrote " ++ code)
  else if job.keepCode then job.link tools file code
  else (job.link tools file code).afterwards (·.erase code)

/-- Does the job for one file after the other, also after one has failed. The first fault is that
of the job. -/
def units (job : Job) (tools : Tools) : List String → Workspace → Option Fault × Workspace
  | [], w => (none, w)
  | file :: files, w =>
    match job.unit tools file w with
    | .ok _ w => job.units tools files w
    | .error fault w => (some fault, (job.units tools files { w with cancelled := true }).2)

/-- Does the job. If an image is to be made, the tools have to be usable before anything is done. -/
def run (job : Job) (tools : Tools) (files : List String) (w : Workspace) :
    Option Fault × Workspace :=
  if job.command = .emit then job.units tools files w
  else match job.toolchain.check tools w with
    | .ok _ w => job.units tools files w
    | .error fault w => (some (.unusable fault), w)

end Job

end BoardPython
