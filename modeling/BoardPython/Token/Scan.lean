import BoardPython.SyntaxError
import BoardPython.Text.DecimalDigit
import BoardPython.Text.Letter

/-! How far single lexemes reach: indentation, numbers, names and string literals. Every function
here looks at the bytes from the start of the lexeme on and knows nothing of lines and brackets
around it. -/
namespace BoardPython.Token.Scan

open Bytes (ascii)

/-- Bytes that may stand in front of the first token of a line. -/
def isIndentation (b : UInt8) : Bool :=
  b == ascii ' ' || b == ascii '\t' || b == ascii '\r' || b == 0x0C

/-- The column reached after one more byte of indentation: a tab goes to the next multiple of
eight, carriage returns and form feeds take no room. -/
def indentStep (width : Nat) (b : UInt8) : Nat :=
  if b == ascii ' ' then width + 1
  else if b == ascii '\t' then width + (8 - width % 8)
  else width

def indentWidth (blanks : Bytes) : Nat := blanks.foldl indentStep 0

def isCommentByte (b : UInt8) : Bool := b != ascii '\n'

def isNameChar (c : Char) : Bool := c == '_' || Text.isLetter c || Text.isDecimalDigit c

def startsName (bs : Bytes) : Bool :=
  match Text.Utf8.decode? bs with
  | some (c, _) => c == '_' || Text.isLetter c
  | none => false

/-- The characters of the name at the start of `bs`, and the bytes after it. -/
def nameSpan (bs : Bytes) : List Char × Bytes :=
  match _h : Text.Utf8.decode? bs with
  | some (c, rest) =>
    if isNameChar c then
      let (cs, after) := nameSpan rest
      (c :: cs, after)
    else ([], bs)
  | none => ([], bs)
termination_by bs.length
decreasing_by exact Text.Utf8.decode?_length _h

def isDigitOrUnderscore (b : UInt8) : Bool := Bytes.isDigit b || b == ascii '_'

def isHexOrUnderscore (b : UInt8) : Bool := Bytes.isHexDigit b || b == ascii '_'

/-- The letters that select a base after a leading zero. -/
def isBaseLetter (b : UInt8) : Bool :=
  let l := Bytes.toLower b
  l == ascii 'x' || l == ascii 'o' || l == ascii 'b'

def digitsLength (bs : Bytes) : Nat := (bs.takeWhile isDigitOrUnderscore).length

def fractionLength : Bytes → Nat
  | b :: rest => if b == ascii '.' then 1 + digitsLength rest else 0
  | [] => 0

def signLength : Bytes → Nat
  | b :: _ => if b == ascii '+' || b == ascii '-' then 1 else 0
  | [] => 0

/-- How far a numeric literal reaches, and whether its exponent, if it has one, has digits. -/
structure NumberSpan where
  length : Nat
  complete : Bool

/-- The exponent at the start of `bs`; it is empty where no exponent mark stands. -/
def exponentSpan : Bytes → NumberSpan
  | b :: rest =>
    if Bytes.toLower b == ascii 'e' then
      let k := signLength rest
      match rest.drop k with
      | d :: digits =>
        if Bytes.isDigit d then ⟨1 + k + digitsLength (d :: digits), true⟩ else ⟨1 + k, false⟩
      | [] => ⟨1 + k, false⟩
    else ⟨0, true⟩
  | [] => ⟨0, true⟩

def imaginaryLength : Bytes → Nat
  | b :: _ => if Bytes.toLower b == ascii 'j' then 1 else 0
  | [] => 0

def decimalSpan (bs : Bytes) : NumberSpan :=
  let whole := digitsLength bs
  let mantissa := whole + fractionLength (bs.drop whole)
  let exponent := exponentSpan (bs.drop mantissa)
  let length := mantissa + exponent.length
  if exponent.complete then ⟨length + imaginaryLength (bs.drop length), true⟩ else ⟨length, false⟩

def numberSpan : Bytes → NumberSpan
  | a :: b :: rest =>
    if a == ascii '0' && isBaseLetter b then
      ⟨2 + (rest.takeWhile isHexOrUnderscore).length, true⟩
    else decimalSpan (a :: b :: rest)
  | bs => decimalSpan bs

/-- Whether a numeric literal starts here: a digit, or a point with a digit after it. -/
def startsNumber : Bytes → Bool
  | a :: b :: _ => Bytes.isDigit a || (a == ascii '.' && Bytes.isDigit b)
  | [a] => Bytes.isDigit a
  | [] => false

/-- A string literal after its opening quote: the bytes it stands for if it is closed, else what
is wrong with it; and in both cases the bytes not read and where they start. -/
inductive Literal where
  | closed (value rest : Bytes) (stop : Position)
  | broken (fault : SyntaxFault) (rest : Bytes) (stop : Position)

namespace Literal

def prepend (bs : Bytes) : Literal → Literal
  | closed value rest stop => closed (bs ++ value) rest stop
  | broken fault rest stop => broken fault rest stop

def rest : Literal → Bytes
  | closed _ rest _ => rest
  | broken _ rest _ => rest

@[simp] theorem rest_prepend (bs : Bytes) (l : Literal) : (l.prepend bs).rest = l.rest := by
  cases l <;> rfl

end Literal

/-- The bytes that a backslash and `b` stand for. An escape that is not known stays as it is
written. -/
def escaped (b : UInt8) : Bytes :=
  if b == ascii 'n' then [ascii '\n']
  else if b == ascii 't' then [ascii '\t']
  else if b == ascii 'r' then [ascii '\r']
  else if b == ascii '0' then [0]
  else if b == ascii '\\' || b == 0x27 || b == ascii '"' then [b]
  else [ascii '\\', b]

def hexByte (high low : UInt8) : UInt8 :=
  UInt8.ofNat ((Bytes.digitValue? high).getD 0 * 16 + (Bytes.digitValue? low).getD 0)

def literal (mark : UInt8) (p : Position) : Bytes → Literal
  | [] => .broken .unterminatedString [] p
  | b :: rest =>
    if b == ascii '\n' then .broken .unterminatedString (b :: rest) p
    else if b == mark then .closed [] rest ⟨p.line, p.column + 1⟩
    else if b != ascii '\\' then (literal mark ⟨p.line, p.column + 1⟩ rest).prepend [b]
    else match rest with
      | [] => .broken .unterminatedString [b] p
      | e :: rest =>
        if e == ascii '\n' then literal mark ⟨p.line + 1, 1⟩ rest
        else if e == ascii 'x' then
          match rest with
          | high :: low :: rest' =>
            if Bytes.isHexDigit high && Bytes.isHexDigit low then
              (literal mark ⟨p.line, p.column + 4⟩ rest').prepend [hexByte high low]
            else .broken .truncatedEscape (high :: low :: rest') ⟨p.line, p.column + 2⟩
          | rest => .broken .truncatedEscape rest ⟨p.line, p.column + 2⟩
        else (literal mark ⟨p.line, p.column + 2⟩ rest).prepend (escaped e)

def operator? (bs : Bytes) : Option Kind :=
  Kind.operators.find? fun k => bs.startsWith k.spelling

def wordKind (word : Bytes) : Kind :=
  (Kind.keywords.find? fun k => k.spelling == word).getD .identifier

end BoardPython.Token.Scan
