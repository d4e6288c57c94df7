import BoardPython.Job
import BoardPython.Number.Word

/-! The command line: flags, then a command and files. -/
namespace BoardPython

inductive Flag where
  | board | keepCode | parallel | noOptimization | device | strict | verbose | watch
  deriving DecidableEq, Repr

namespace Flag

inductive Form where
  | switch
  | text
  | count
  deriving DecidableEq, Repr

def all : List Flag :=
  [board, keepCode, parallel, noOptimization, device, strict, verbose, watch]

def name : Flag → String
  | board => "board"
  | keepCode => "emit-llvm"
  | parallel => "j"
  | noOptimization => "no-opt"
  | device => "p"
  | strict => "strict-arity"
  | verbose => "v"
  | watch => "w"

def form : Flag → Form
  | board => .text
  | parallel => .count
  | device => .text
  | _ => .switch

def ofName? (s : String) : Option Flag := all.find? (·.name == s)

def help : Flag → String
  | board => "target board " ++ Board.nameList
  | keepCode => "keep the generated .ll file"
  | parallel => "number of files compiled in parallel"
  | noOptimization => "disable llc optimizations"
  | device => "serial port to flash"
  | strict => "reject calls with the wrong number of arguments"
  | verbose => "log compiler progress"
  | watch => "rebuild when a source file changes"

/-- What holds without the flag, if it is worth a word. -/
def usual? (parallelism : String) : Flag → Option String
  | board => some (Text.quote (Bytes.ofString Board.default.name))
  | parallel => some parallelism
  | _ => none

/-- The text about a flag. One with a single letter and nothing after it is on one line. -/
def usage (parallelism : String) (f : Flag) : String :=
  let value := match f.form with
    | .switch => ""
    | .text => " string"
    | .count => " int"
  let head := "  -" ++ f.name ++ value
  let usual := match f.usual? parallelism with
    | some text => s!" (default {text})"
    | none => ""
  head ++ (if head.length ≤ 4 then "\t" else "\n    \t") ++ f.help ++ usual ++ "\n"

end Flag

namespace CommandLine

def usage (parallelism : String) : String :=
  "Damn Small Python compiles a Python subset for Arduino boards.\n\n" ++
  "Usage: dsp [flags] <build|flash|emit> <file.py>...\n\n" ++
  "Commands:\n" ++
  "  build   compile and link each file into a hex image\n" ++
  "  flash   build one file and upload it (needs -p)\n" ++
  "  emit    write the LLVM IR of each file next to it\n\n" ++
  "Flags:\n" ++ String.join (Flag.all.map (Flag.usage parallelism))

inductive Misuse where
  /-- A question rather than a mistake. -/
  | help
  | malformed (arg : String)
  | unknown (name : String)
  | missingValue (flag : Flag)
  | badSwitch (value : String) (flag : Flag)
  | badCount (value : String) (flag : Flag) (fault : Number.WordFault)
  deriving DecidableEq, Repr

namespace Misuse

def message? : Misuse → Option String
  | help => none
  | malformed arg => some ("bad flag syntax: " ++ arg)
  | unknown name => some ("flag provided but not defined: -" ++ name)
  | missingValue flag => some ("flag needs an argument: -" ++ flag.name)
  | badSwitch value flag =>
    let quoted := Text.quote (Bytes.ofString value)
    some s!"invalid boolean value {quoted} for -{flag.name}: parse error"
  | badCount value flag fault =>
    let quoted := Text.quote (Bytes.ofString value)
    some s!"invalid value {quoted} for flag -{flag.name}: {fault.message}"

end Misuse

inductive Arg where
  | operand
  | endOfFlags
  | malformed
  | flag (name : String) (value : Option String)
  deriving DecidableEq, Repr

/-- A flag without its dashes: a name, and a value after an equals sign. -/
def splitFlag (cs : List Char) : Arg :=
  match cs with
  | [] => .malformed
  | c :: _ =>
    if c = '-' ∨ c = '=' then .malformed
    else
      let name := String.ofList (cs.takeWhile (· != '='))
      match cs.dropWhile (· != '=') with
      | [] => .flag name none
      | _ :: value => .flag name (some (String.ofList value))

/-- Tells what an argument is. Flags have one dash or two. -/
def Arg.ofText (arg : String) : Arg :=
  match arg.toList with
  | '-' :: '-' :: [] => .endOfFlags
  | '-' :: '-' :: rest => splitFlag rest
  | '-' :: c :: rest => splitFlag (c :: rest)
  | _ => .operand

def readSwitch (value : String) : Option Bool :=
  if ["1", "t", "T", "TRUE", "true", "True"].contains value then some true
  else if ["0", "f", "F", "FALSE", "false", "False"].contains value then some false
  else none

def setSwitch (flag : Flag) (on : Bool) (o : Options) : Options :=
  match flag with
  | .keepCode => { o with keepCode := on }
  | .noOptimization => { o with noOptimization := on }
  | .strict => { o with strict := on }
  | .verbose => { o with verbose := on }
  | .watch => { o with watch := on }
  | _ => o

def set (flag : Flag) (value : String) (o : Options) : Except Misuse Options :=
  match flag.form with
  | .switch =>
    match readSwitch value with
    | some on => .ok (setSwitch flag on o)
    | none => .error (.badSwitch value flag)
  | .text => .ok (if flag = .board then { o with board := value } else { o with device := value })
  | .count =>
    match Number.readInt64 (Bytes.ofString value) with
    | .ok n => .ok { o with parallel := n }
    | .error fault => .error (.badCount value flag fault)

/-- Reads the flags in front of the command, and gives what follows them. A flag that needs a value
and has none takes the next argument. -/
def flags (o : Options) : List String → Except Misuse (Options × List String)
  | [] => .ok (o, [])
  | arg :: rest =>
    match Arg.ofText arg with
    | .operand => .ok (o, arg :: rest)
    | .endOfFlags => .ok (o, rest)
    | .malformed => .error (.malformed arg)
    | .flag name value =>
      match Flag.ofName? name, value with
      | none, _ => .error (if name = "h" ∨ name = "help" then .help else .unknown name)
      | some f, some value => do flags (← set f value o) rest
      | some f, none =>
        if f.form = .switch then flags (setSwitch f true o) rest
        else match rest with
          | [] => .error (.missingValue f)
          | value :: rest => do flags (← set f value o) rest

def usualOptions (parallel : Int) : Options :=
  ⟨"", false, false, false, false, false, "", Board.default.name, parallel⟩

structure Request where
  job : Job
  files : List String
  watch : Bool

/-- Why there is nothing to do: the exit code, and what is said. -/
structure Refusal where
  code : Nat
  messages : String
  deriving DecidableEq, Repr

def fatal (message : String) : Refusal := ⟨1, Workspace.logLine message⟩

/-- The command that a word means. There are two words for flashing. -/
def commandWord (word : String) : String := if word = "upload" then "flash" else word

/-- Reads a command line. `parallelism` is how the usage text calls the usual number of files worked
on at a time. -/
def read (env : Toolchain.Variables) (parallelism : String) (parallel : Int)
    (args : List String) : Except Refusal Request :=
  match flags (usualOptions parallel) args with
  | .error misuse =>
    let message := (misuse.message?.map (· ++ "\n")).getD ""
    .error ⟨if misuse = .help then 0 else 2, message ++ usage parallelism⟩
  | .ok (o, word :: file :: files) =>
    let o := { o with command := commandWord word }
    match Job.ofOptions env o with
    | .error fault => .error (fatal fault.message)
    | .ok job =>
      if job.command = .flash ∧ files ≠ [] then .error (fatal "flash takes exactly one file")
      else .ok ⟨job, file :: files, o.watch⟩
  | .ok _ => .error ⟨2, usage parallelism⟩

def run (env : Toolchain.Variables) (parallelism : String) (parallel : Int) (tools : Tools)
    (args : List String) (w : Workspace) : Nat × Workspace :=
  match read env parallelism parallel args with
  | .error refusal => (refusal.code, w.tell refusal.messages)
  | .ok request =>
    match request.job.run tools request.files w with
    | (none, w) => (0, w)
    | (some fault, w) => (1, w.log fault.message)

end CommandLine

end BoardPython
