import BoardPython.Bytes
import BoardPython.Path

/-! Files and directories. A name is followed piece by piece, and every piece but the last one has
to be that of a directory, also if the next one leads back out of it. -/
namespace BoardPython

/-- The files that a job can see, at most one at a path, and the directories they are in. -/
structure Files where
  entries : List (Path × Bytes)
  directories : List Path
  deriving DecidableEq, Repr

namespace Files

def empty : Files := ⟨[], []⟩

inductive Fault where
  | missing
  | isDirectory
  | notDirectory
  | tooLong
  | invalid
  deriving DecidableEq, Repr

namespace Fault

def reason : Fault → String
  | missing => "no such file or directory"
  | isDirectory => "is a directory"
  | notDirectory => "not a directory"
  | tooLong => "file name too long"
  | invalid => "invalid argument"

def opening (name : String) (f : Fault) : String := s!"open {name}: {f.reason}"

/-- The wording for a file that cannot be read. Directories can be opened. -/
def reading (name : String) (f : Fault) : String :=
  if f = isDirectory then s!"read {name}: {f.reason}" else f.opening name

end Fault

def get? (fs : Files) (path : Path) : Option Bytes := fs.entries.lookup path

/-- Whether there is a directory at a path. The root, the current directory and those above it are
always there. -/
def isDirectory (fs : Files) (path : Path) : Bool :=
  path.parts.all (· == Path.above) || fs.directories.contains path

def pieceLimit : Nat := 255

def nameLimit : Nat := 4095

def enter (fs : Files) (path : Path) (piece : List Char) : Except Fault Path :=
  if fs.isDirectory path then
    if (String.ofList piece).utf8ByteSize ≤ pieceLimit then .ok (path.enter piece)
    else .error .tooLong
  else if (fs.get? path).isSome then .error .notDirectory
  else .error .missing

/-- The path that a name leads to. There need not be anything at its end. -/
def locate (fs : Files) (name : String) : Except Fault Path :=
  if name.toList.contains (Char.ofNat 0) then .error .invalid
  else if name = "" then .error .missing
  else if name.utf8ByteSize ≤ nameLimit then
    (Path.pieces name.toList).foldlM fs.enter (Path.origin name)
  else .error .tooLong

def find (fs : Files) (name : String) : Except Fault Path :=
  match fs.locate name with
  | .error fault => .error fault
  | .ok path =>
    if (fs.get? path).isSome || fs.isDirectory path then .ok path else .error .missing

def read (fs : Files) (name : String) : Except Fault Bytes :=
  match fs.locate name with
  | .error fault => .error fault
  | .ok path =>
    match fs.get? path with
    | some contents => .ok contents
    | none => .error (if fs.isDirectory path then .isDirectory else .missing)

def insert (fs : Files) (path : Path) (contents : Bytes) : Files :=
  if (fs.get? path).isSome then
    { fs with entries := fs.entries.map fun e => if e.1 = path then (path, contents) else e }
  else { fs with entries := fs.entries ++ [(path, contents)] }

def write (fs : Files) (name : String) (contents : Bytes) : Except Fault Files :=
  match fs.locate name with
  | .error fault => .error fault
  | .ok path =>
    if fs.isDirectory path then .error .isDirectory else .ok (fs.insert path contents)

def touch (fs : Files) (name : String) : Files :=
  match fs.write name [] with
  | .ok after => after
  | .error _ => fs

def erase (fs : Files) (name : String) : Files :=
  match fs.locate name with
  | .ok path => { fs with entries := fs.entries.filter (·.1 ≠ path) }
  | .error _ => fs

/-- Adds a file with the directories that its name leads through. -/
def place (fs : Files) (name : String) (contents : Bytes) : Files :=
  let way := (Path.origin name).way (Path.pieces name.toList)
  { fs with directories := fs.directories ++ way }.insert (Path.ofText name) contents

def names (fs : Files) : List String :=
  let first := (fs.directories ++ fs.entries.map (·.1)).filterMap fun path =>
    if path.rooted then none else path.parts.head?
  ((first.filter (· ≠ Path.above)).map String.ofList
    |>.mergeSort fun a b => decide (a ≤ b)).eraseDups

end Files

end BoardPython
