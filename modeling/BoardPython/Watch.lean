import BoardPython.Workspace

/-! Building files again when they change. A change starts a timer, every further change starts it
anew, and when it runs out the files that have changed are built. -/
namespace BoardPython

inductive FileChange where
  | create | write | remove | rename | chmod
  deriving DecidableEq, Repr

namespace FileChange

/-- Whether a change can change the contents of a file. -/
def isRelevant : FileChange → Bool
  | create => true
  | write => true
  | rename => true
  | remove => false
  | chmod => false

end FileChange

inductive Signal where
  | event (file : String) (changes : List FileChange)
  | failure (reason : String)
  | expiry
  deriving DecidableEq, Repr

structure Watch where
  watched : List String
  pending : List String
  armed : Bool
  deriving DecidableEq, Repr

namespace Watch

inductive Action where
  | nothing
  | log (text : String)
  | build (files : List String)
  deriving DecidableEq, Repr

def start (files : List String) : Watch := ⟨files, [], false⟩

/-- Whether an event has to lead to a build. -/
def concerns (w : Watch) (file : String) (changes : List FileChange) : Bool :=
  w.watched.contains file && changes.any FileChange.isRelevant

/-- The reaction to a signal. Changed files are built in the order of their names. A timer that does
not run does not run out. -/
def step (w : Watch) : Signal → Watch × Action
  | .event file changes =>
    if w.concerns file changes then
      ({ w with
          pending := if w.pending.contains file then w.pending else w.pending ++ [file]
          armed := true }, .nothing)
    else (w, .nothing)
  | .failure reason => (w, .log ("watch: " ++ reason))
  | .expiry =>
    if w.armed then
      ({ w with pending := [], armed := false },
        .build (w.pending.mergeSort fun a b => decide (a ≤ b)))
    else (w, .nothing)

/-- A watch with what it has done: the lists of files it has built, and its log. -/
structure Session where
  watch : Watch
  builds : List (List String)
  log : String
  deriving Repr

namespace Session

def build (s : Session) (failure : List String → Option String) (files : List String) : Session :=
  { s with
    builds := s.builds ++ [files]
    log := s.log ++ ((failure files).map Workspace.logLine).getD "" }

/-- All files are built at first, and then watched. Their directories have to be there, which
`fault?` tells. -/
def start (directory : String) (fault? : Path → Option Files.Fault)
    (failure : List String → Option String) (files : List String) : Except Files.Fault Session :=
  let paths := files.map (Path.absolute directory)
  match paths.findSome? fun path => fault? path.parent with
  | some fault => .error fault
  | none =>
    let s := (⟨Watch.start (paths.map Path.text), [], ""⟩ : Session).build failure files
    .ok { s with log := s.log ++ Workspace.logLine s!"watching {files.length} file(s)" }

def step (failure : List String → Option String) (s : Session) (signal : Signal) : Session :=
  let (watch, action) := s.watch.step signal
  let s := { s with watch := watch }
  match action with
  | .nothing => s
  | .log text => { s with log := s.log ++ Workspace.logLine text }
  | .build files => s.build failure files

end Session

end Watch

end BoardPython
