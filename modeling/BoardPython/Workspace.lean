import BoardPython.Files

/-! The directory that a job works in, with what the job has printed and which programs it has
started. -/
namespace BoardPython

structure Call where
  program : String
  args : List String
  deriving DecidableEq, Repr

/-- How a call goes: what the program prints, why it fails if it does, and the file it makes. -/
structure Reply where
  output : String
  failure : Option String
  creates : Option String
  deriving DecidableEq, Repr

structure Tools where
  reply : List Call → Call → Reply
  /-- Whether no program is started any more after a file has failed. -/
  cancellable : Bool

/-- The state of a directory and of what has been done in it. -/
structure Workspace where
  files : Files
  calls : List Call
  cancelled : Bool
  output : String
  messages : String
  deriving Repr

namespace Workspace

def ofFiles (files : Files) : Workspace := ⟨files, [], false, "", ""⟩

def print (w : Workspace) (text : String) : Workspace := { w with output := w.output ++ text }

def tell (w : Workspace) (text : String) : Workspace := { w with messages := w.messages ++ text }

def logLine (text : String) : String :=
  "dsp: " ++ text ++ if text.toList.getLast? = some '\n' then "" else "\n"

def log (w : Workspace) (text : String) : Workspace := w.tell (logLine text)

def erase (w : Workspace) (name : String) : Workspace := { w with files := w.files.erase name }

def start (tools : Tools) (call : Call) (w : Workspace) : Reply × Workspace :=
  if w.cancelled && tools.cancellable then (⟨"", some "context canceled", none⟩, w)
  else
    let reply := tools.reply w.calls call
    let files := match reply.creates with
      | some path => w.files.touch path
      | none => w.files
    (reply, { w with files := files, calls := w.calls ++ [call] })

end Workspace

/-- Work in a workspace. What was done before an error stays done. -/
abbrev Work (ε : Type) := EStateM ε Workspace

namespace Work

def mapError {ε δ α : Type} (f : ε → δ) (x : Work ε α) : Work δ α := fun w =>
  match x w with
  | .ok a w => .ok a w
  | .error e w => .error (f e) w

/-- Does something to the workspace after some work, however it ends. -/
def afterwards {ε α : Type} (x : Work ε α) (f : Workspace → Workspace) : Work ε α := fun w =>
  match x w with
  | .ok a w => .ok a (f w)
  | .error e w => .error e (f w)

def afterError {ε α : Type} (x : Work ε α) (f : Workspace → Workspace) : Work ε α := fun w =>
  match x w with
  | .ok a w => .ok a w
  | .error e w => .error e (f w)

def log {ε : Type} (text : String) : Work ε Unit := modify fun w => w.log text

end Work

end BoardPython
