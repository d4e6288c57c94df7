import BoardPython.Board
import BoardPython.Text.Blank
import BoardPython.Toolchain.Version
import BoardPython.Workspace

/-! The programs that make an image of the code and put it on a board. -/
namespace BoardPython

structure Toolchain where
  coreDirectory : String
  llc : String
  builder : String
  flasher : String
  board : Board
  optimize : Bool
  deriving DecidableEq, Repr

namespace Toolchain

/-- Environment variables; one that is not set is empty. -/
abbrev Variables := String → String

def ofVariables (env : Variables) (board : Board) : Toolchain :=
  let program (name usual : String) : String :=
    if env name = "" then usual else env name
  ⟨env "ARDUINO_DIR", program "DSP_LLC" "llc", program "DSP_BUILDER" "dsp-builder",
    program "DSP_FLASHER" "dsp-flash", board, true⟩

inductive Fault where
  | version (fault : Version.Fault)
  | notRunning (program reason : String)
  | tooOld (version : Version)
  | noTarget (version : Version)
  | noCoreDirectory
  | noDevice
  | failed (program reason output : String)
  | linking (fault : Fault)
  | uploading (fault : Fault)
  deriving DecidableEq, Repr

namespace Fault

def message : Fault → String
  | version .missing => "no LLVM version in llc output"
  | version (.segment digits) =>
    let quoted := Text.quote (Bytes.ofString digits)
    s!"Error parsing version segment: strconv.ParseUint: parsing {quoted}: value out of range"
  | notRunning program reason => s!"running {program}: {reason}"
  | tooOld v => s!"llc {v.text} is too old, need >= {Version.oldest.text}"
  | noTarget v => s!"llc {v.text} was built without the AVR target"
  | noCoreDirectory => "ARDUINO_DIR is not set; point it at your Arduino software location"
  | noDevice => "flash needs a serial port (-p)"
  | failed program reason output =>
    let said := Text.trim output
    s!"{program}: {reason}" ++ if said = "" then "" else "\n" ++ said
  | linking fault => "builder failed: " ++ fault.message
  | uploading fault => "upload failed: " ++ fault.message

/-- The version that was found before the fault. -/
def version? : Fault → Option Version
  | tooOld v => some v
  | noTarget v => some v
  | _ => none

def isNoCoreDirectory : Fault → Bool
  | noCoreDirectory => true
  | linking fault => fault.isNoCoreDirectory
  | uploading fault => fault.isNoCoreDirectory
  | _ => false

end Fault

def tool (tools : Tools) (program : String) (args : List String) : Work Fault Unit := do
  let reply ← modifyGet (Workspace.start tools ⟨program, args⟩)
  match reply.failure with
  | none => return ()
  | some reason => throw (.failed program reason reply.output)

def mentions (part : List Char) : List Char → Bool
  | [] => part.isEmpty
  | c :: cs => part.isPrefixOf (c :: cs) || mentions part cs

/-- Checks that the code generator runs, is new enough and knows the processors. -/
def check (t : Toolchain) (tools : Tools) : Work Fault Version := do
  let reply ← modifyGet (Workspace.start tools ⟨t.llc, ["--version"]⟩)
  match reply.failure with
  | some reason => throw (.notRunning t.llc reason)
  | none =>
    match Version.ofText reply.output with
    | .error fault => throw (.version fault)
    | .ok v =>
      if !v.atLeast .oldest then throw (.tooOld v)
      else if !mentions "avr".toList reply.output.toList then throw (.noTarget v)
      else return v

def objectPath (code : String) : String := dropEnding code ".ll" ++ ".o"

def imagePath (code : String) : String := dropEnding code ".ll" ++ ".hex"

def compile (t : Toolchain) (tools : Tools) (code : String) : Work Fault String := do
  let object := objectPath code
  let level := if t.optimize then "-O2" else "-O0"
  tool tools t.llc
    ["-march=avr", "-mcpu=" ++ t.board.cpu, "-filetype=obj", level, code, "-o", object]
  return object

/-- Makes an image next to a code file. The object file is removed afterwards in any case. -/
def build (t : Toolchain) (tools : Tools) (code : String) : Work Fault String := do
  if t.coreDirectory = "" then throw .noCoreDirectory
  let object ← compile t tools code
  let image := imagePath code
  let link := tool tools t.builder [t.coreDirectory, t.board.name, object, image]
  (link.mapError .linking).afterwards (·.erase object)
  return image

def flash (t : Toolchain) (tools : Tools) (image device : String) : Work Fault Unit := do
  if t.coreDirectory = "" then throw .noCoreDirectory
  if device = "" then throw .noDevice
  (tool tools t.flasher [t.coreDirectory, t.board.cpu, image, device]).mapError .uploading

end Toolchain

end BoardPython
