import BoardPython.Text.Printable
import BoardPython.Text.Utf8

/-! Quoted text as messages show it: printable characters stand for themselves, everything else is
an escape, so that a message never holds a control character of the quoted text. -/
namespace BoardPython.Text

def hexDigits (width n : Nat) : List Char :=
  let digits := Nat.toDigits 16 n
  List.replicate (width - digits.length) '0' ++ digits

/-- The characters that have an escape letter of their own. -/
def escapeLetter? (c : Char) : Option Char :=
  match c.toNat with
  | 7 => some 'a'
  | 8 => some 'b'
  | 12 => some 'f'
  | 10 => some 'n'
  | 13 => some 'r'
  | 9 => some 't'
  | 11 => some 'v'
  | _ => none

def quotedChar (mark c : Char) : List Char :=
  if c = mark || c = '\\' then ['\\', c]
  else if isPrintable c then [c]
  else match escapeLetter? c with
    | some letter => ['\\', letter]
    | none =>
      if c.toNat < 0x80 then '\\' :: 'x' :: hexDigits 2 c.toNat
      else if c.toNat < 0x10000 then '\\' :: 'u' :: hexDigits 4 c.toNat
      else '\\' :: 'U' :: hexDigits 8 c.toNat

/-- A byte sequence in double quotes; a stray byte is a hexadecimal escape. -/
def quote (bs : Bytes) : String :=
  String.ofList ('"' :: (Utf8.pieces bs).flatMap (fun
    | .inl c => quotedChar '"' c
    | .inr b => '\\' :: 'x' :: hexDigits 2 b.toNat) ++ ['"'])

def quoteChar (c : Char) : String :=
  String.ofList ('\'' :: quotedChar '\'' c ++ ['\''])

end BoardPython.Text
