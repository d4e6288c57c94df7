/-! Versions of the code generator, as its version text tells them. -/
namespace BoardPython.Toolchain

structure Version where
  major : Nat
  minor : Nat
  patch : Nat
  deriving DecidableEq, Repr

namespace Version

def text (v : Version) : String := s!"{v.major}.{v.minor}.{v.patch}"

def atLeast (v least : Version) : Bool :=
  least.major < v.major ||
    (least.major == v.major &&
      (least.minor < v.minor || (least.minor == v.minor && least.patch ≤ v.patch)))

def oldest : Version := ⟨13, 0, 0⟩

inductive Fault where
  | missing
  | segment (digits : String)
  deriving DecidableEq, Repr

def digits (cs : List Char) : List Char × List Char :=
  (cs.takeWhile Char.isDigit, cs.dropWhile Char.isDigit)

def pointDigits? : List Char → Option (List Char × List Char)
  | '.' :: rest =>
    match digits rest with
    | ([], _) => none
    | (ds, rest) => some (ds, rest)
  | _ => none

/-- The numbers of a version at the start of a text. The third one can be missing. -/
def segments? (cs : List Char) : Option (List (List Char)) :=
  match digits cs with
  | ([], _) => none
  | (major, rest) =>
    match pointDigits? rest with
    | none => none
    | some (minor, rest) =>
      match pointDigits? rest with
      | none => some [major, minor]
      | some (patch, _) => some [major, minor, patch]

def mark : List Char := "LLVM version ".toList

def find? : List Char → Option (List (List Char))
  | [] => none
  | c :: cs =>
    match (if mark.isPrefixOf (c :: cs) then segments? ((c :: cs).drop mark.length) else none) with
    | some segments => some segments
    | none => find? cs

def value (ds : List Char) : Nat := ds.foldl (fun n c => n * 10 + (c.toNat - 48)) 0

def largest : Nat := 0xFFFFFFFFFFFFFFFF

def segment (ds : List Char) : Except Fault Nat :=
  if value ds ≤ largest then .ok (value ds) else .error (.segment (String.ofList ds))

def ofText (text : String) : Except Fault Version :=
  match find? text.toList with
  | some [major, minor] => return ⟨← segment major, ← segment minor, 0⟩
  | some [major, minor, patch] => return ⟨← segment major, ← segment minor, ← segment patch⟩
  | _ => .error .missing

end Version

end BoardPython.Toolchain
