import BoardPython.CommandLine
import BoardPython.Watch

/-! The program. It works on a copy of the files that the command line names, and then writes back
what has changed. It starts no other programs, so that every tool is one that is not found. -/
namespace BoardPython.Main

def noTools : Tools where
  reply _ call :=
    let name := Text.quote (Bytes.ofString call.program)
    ⟨"", some s!"exec: {name}: executable file not found in $PATH", none⟩
  cancellable := true

def contents? (name : String) : IO (Option Bytes) := do
  try
    return some (← IO.FS.readBinFile name).data.toList
  catch _ => return none

def load (names : List String) : IO Files := do
  let mut files := Files.empty
  for name in names do
    if let some contents ← contents? name then files := files.place name contents
  return files

/-- Makes the disk agree with what has become of the files. -/
def store (before after : Files) : IO Unit := do
  for (path, contents) in after.entries do
    if before.get? path ≠ some contents then
      IO.FS.writeBinFile path.text ⟨contents.toArray⟩
  for (path, _) in before.entries do
    if (after.get? path).isNone then IO.FS.removeFile path.text

def build (job : Job) (names : List String) : IO (Option Job.Fault) := do
  let files ← load names
  let (fault, w) := job.run noTools names (.ofFiles files)
  store files w.files
  (← IO.getStdout).putStr w.output
  (← IO.getStderr).putStr w.messages
  return fault

def buildAndLog (job : Job) (names : List String) : IO Unit := do
  if let some fault ← build job names then
    (← IO.getStderr).putStr (Workspace.logLine fault.message)

/-- The time between two looks at the files. -/
def settle : UInt32 := 150

/-- Looks at the files again and again. Files that have changed since the last look are events; a
look without events is an expiry. -/
partial def watch (job : Job) (w : Watch) (seen : List (String × Option Bytes)) : IO Unit := do
  IO.sleep settle
  let now ← seen.mapM fun (name, _) => return (name, ← contents? name)
  let events := (seen.zip now).filterMap fun ((name, before), (_, after)) =>
    if before = after then none else some (Signal.event name [.write])
  let signals := if events.isEmpty then [Signal.expiry] else events
  let mut state := w
  for signal in signals do
    let (next, action) := state.step signal
    state := next
    match action with
    | .nothing => pure ()
    | .log text => (← IO.getStderr).putStr (Workspace.logLine text)
    | .build names => buildAndLog job names
  watch job state now

end BoardPython.Main

open BoardPython in
def main (args : List String) : IO UInt32 := do
  let named := ["ARDUINO_DIR", "DSP_LLC", "DSP_BUILDER", "DSP_FLASHER"]
  let values ← named.mapM fun name => return (name, (← IO.getEnv name).getD "")
  match CommandLine.read (fun name => (values.lookup name).getD "") "1" 1 args with
  | .error refusal =>
    (← IO.getStderr).putStr refusal.messages
    return refusal.code.toUInt32
  | .ok request =>
    if request.watch then
      Main.buildAndLog request.job request.files
      (← IO.getStderr).putStr
        (Workspace.logLine s!"watching {request.files.length} file(s)")
      let seen ← request.files.mapM fun name => return (name, ← Main.contents? name)
      Main.watch request.job (.start request.files) seen
      return 0
    match ← Main.build request.job request.files with
    | none => return 0
    | some fault =>
      (← IO.getStderr).putStr (Workspace.logLine fault.message)
      return 1
