import BoardPython.Token.Scan

/-! From source text to tokens. The ends of lines and the changes of indentation become tokens of
their own; inside brackets neither counts. A lexer can be run again after it has stopped: it goes on
where it stopped, also after an error. -/
namespace BoardPython

open Token (Kind)
open Bytes (ascii)

/-- Where a lexer stands. -/
structure Lexer where
  rest : Bytes
  line : Nat := 1
  column : Nat := 1
  depth : Nat := 0
  /-- The indentations of the open blocks, innermost first; the outermost level, zero, is not
  listed. -/
  levels : List Nat := []
  /-- A new line has begun and its indentation has not been looked at. -/
  lineStart : Bool := true
  last : Option Kind := none
  deriving Repr

namespace Lexer

def ofBytes (text : Bytes) : Lexer := ⟨text, 1, 1, 0, [], true, none⟩

def position (s : Lexer) : Position := ⟨s.line, s.column⟩

def advance (s : Lexer) (n : Nat) : Lexer :=
  { s with rest := s.rest.drop n, column := s.column + n }

/-- Goes to the start of the next line, past `n` bytes. -/
def nextLine (s : Lexer) (n : Nat) : Lexer :=
  { s with rest := s.rest.drop n, line := s.line + 1, column := 1 }

def token (s : Lexer) (kind : Kind) (text : Bytes) : Token := ⟨kind, text, s.position⟩

/-- The outcome of one step: tokens and a lexer that has moved on, or an error and where the lexer
stopped. -/
inductive Step where
  | more (tokens : List Token) (next : Lexer)
  | fail (error : SyntaxError) (stop : Lexer)

def single (s : Lexer) (kind : Kind) (text : Bytes) (next : Lexer) : Step :=
  .more [s.token kind text] { next with last := some kind }

def failAt (p : Position) (fault : SyntaxFault) (stop : Lexer) : Step := .fail ⟨p, fault⟩ stop

def level (s : Lexer) : Nat := s.levels.headD 0

def skipComment (s : Lexer) : Lexer := s.advance (s.rest.takeWhile Token.Scan.isCommentByte).length

/-- A line without tokens ends: its newline, if there is one, is read. -/
def endBlankLine (s : Lexer) : Step :=
  .more [] (if s.rest.isEmpty then s else s.nextLine 1)

/-- Looks at the indentation of a line that has tokens, `width` wide: a deeper line opens a block,
a shallower one closes blocks until its own level is reached. -/
def indent (s : Lexer) (width : Nat) : Step :=
  if s.level < width then
    .more [s.token .indent []]
      { s with levels := width :: s.levels, lineStart := false, last := some .indent }
  else
    let kept := s.levels.dropWhile (width < ·)
    let closed := s.levels.takeWhile (width < ·)
    let s' := { s with levels := kept }
    if s'.level = width then
      .more (closed.map fun _ => s.token .dedent [])
        { s' with lineStart := false, last := if closed.isEmpty then s.last else some .dedent }
    else failAt s.position .unmatchedDedent s'

/-- The start of a line outside brackets. Lines with nothing but blanks and a comment are passed
over. -/
def layout (s : Lexer) : Step :=
  let blanks := s.rest.takeWhile Token.Scan.isIndentation
  let s := s.advance blanks.length
  match s.rest with
  | [] => s.endBlankLine
  | b :: _ =>
    if b == ascii '\n' then s.endBlankLine
    else if b == ascii '#' then s.skipComment.endBlankLine
    else s.indent (Token.Scan.indentWidth blanks)

/-- The end of a line. It is a token unless brackets are open or the line has none. -/
def newline (s : Lexer) : Step :=
  let next := { s.nextLine 1 with lineStart := true }
  if s.depth = 0 ∧ s.last.isSome ∧ s.last ≠ some .newline then s.single .newline [] next
  else .more [] next

/-- A numeric literal. A letter or an underscore right after it is an error. -/
def number (s : Lexer) : Step :=
  let span := Token.Scan.numberSpan s.rest
  let next := s.advance span.length
  if !span.complete then failAt s.position .missingExponent next
  else if Token.Scan.startsName next.rest then
    failAt s.position (.numberRunsOn (s.rest.take (span.length + 1))) next
  else s.single .number (s.rest.take span.length) next

/-- A name or keyword. Its characters take one column each. -/
def word (s : Lexer) : Step :=
  let (cs, rest) := Token.Scan.nameSpan s.rest
  let text := s.rest.take (s.rest.length - rest.length)
  s.single (Token.Scan.wordKind text) text
    { s with rest := rest, column := s.column + cs.length }

def string (s : Lexer) (mark : UInt8) : Step :=
  match Token.Scan.literal mark (s.advance 1).position (s.rest.drop 1) with
  | .closed value rest stop =>
    s.single .string value { s with rest := rest, line := stop.line, column := stop.column }
  | .broken fault rest stop =>
    failAt s.position fault { s with rest := rest, line := stop.line, column := stop.column }

/-- An operator or delimiter. Brackets are counted; a closing one too many is not. -/
def operator (s : Lexer) : Step :=
  match Token.Scan.operator? s.rest with
  | none => failAt s.position (.strayCharacter (Text.Utf8.first s.rest)) s
  | some k =>
    let depth :=
      if k = .leftParen ∨ k = .leftBracket then s.depth + 1
      else if k = .rightParen ∨ k = .rightBracket then s.depth - 1
      else s.depth
    s.single k k.spelling { s.advance k.spelling.length with depth := depth }

/-- Whether a backslash and the end of the line stand here: the line goes on on the next one. -/
def continuesLine : Bytes → Bool
  | a :: b :: _ => a == ascii '\\' && b == ascii '\n'
  | _ => false

def lexeme (s : Lexer) (b : UInt8) : Step :=
  if b == ascii '\n' then s.newline
  else if b == ascii ' ' || b == ascii '\t' || b == ascii '\r' then .more [] (s.advance 1)
  else if continuesLine s.rest then .more [] (s.nextLine 2)
  else if b == ascii '#' then .more [] s.skipComment
  else if Token.Scan.startsNumber s.rest then s.number
  else if Token.Scan.startsName s.rest then s.word
  else if b == ascii '"' || b == 0x27 then s.string b
  else s.operator

def step (s : Lexer) (b : UInt8) : Step :=
  if s.lineStart && s.depth == 0 then s.layout else s.lexeme b

/-- The end of the text: it ends the last line and closes all blocks. -/
def finish (s : Lexer) : List Token × Lexer :=
  let newline := if s.last.isSome ∧ s.last ≠ some .newline then [s.token .newline []] else []
  (newline ++ s.levels.map (fun _ => s.token .dedent []) ++ [s.token .eof []],
    { s with levels := [], last := some .eof })

end Lexer

end BoardPython
