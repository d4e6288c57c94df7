import BoardPython.Bytes
import BoardPython.Position

/-! Tokens of the language. A token is its kind, its text and where it starts. -/
namespace BoardPython

namespace Token

/-- What a token is. `other` are codes that no token of a source text has; they arise only in
token lists put together by hand. -/
inductive Kind where
  | eof | newline | indent | dedent | number | string | identifier
  | plus | minus | star | slash | doubleSlash | percent | doubleStar
  | ampersand | pipe | caret | tilde | shiftLeft | shiftRight
  | less | greater | lessEqual | greaterEqual | equal | notEqual
  | assign | plusAssign | minusAssign | starAssign | slashAssign | percentAssign
  | leftParen | rightParen | leftBracket | rightBracket
  | comma | colon | dot | arrow | ellipsis
  | kwDef | kwReturn | kwIf | kwElif | kwElse | kwWhile | kwPass | kwGlobal
  | kwTrue | kwFalse | kwNone | kwAnd | kwOr | kwNot | kwLambda
  | other (code : Int)
  deriving DecidableEq, Repr, Inhabited

namespace Kind

/-- The kinds a source text can give, in the order of their codes. -/
def all : List Kind :=
  [.eof, .newline, .indent, .dedent, .number, .string, .identifier,
   .plus, .minus, .star, .slash, .doubleSlash, .percent, .doubleStar,
   .ampersand, .pipe, .caret, .tilde, .shiftLeft, .shiftRight,
   .less, .greater, .lessEqual, .greaterEqual, .equal, .notEqual,
   .assign, .plusAssign, .minusAssign, .starAssign, .slashAssign, .percentAssign,
   .leftParen, .rightParen, .leftBracket, .rightBracket,
   .comma, .colon, .dot, .arrow, .ellipsis,
   .kwDef, .kwReturn, .kwIf, .kwElif, .kwElse, .kwWhile, .kwPass, .kwGlobal,
   .kwTrue, .kwFalse, .kwNone, .kwAnd, .kwOr, .kwNot, .kwLambda]

/-- The name of a kind in messages: its spelling where it has one. -/
def name : Kind → String
  | eof => "EOF" | newline => "NEWLINE" | indent => "INDENT" | dedent => "DEDENT"
  | number => "number" | string => "string" | identifier => "identifier"
  | plus => "+" | minus => "-" | star => "*" | slash => "/" | doubleSlash => "//"
  | percent => "%" | doubleStar => "**" | ampersand => "&" | pipe => "|" | caret => "^"
  | tilde => "~" | shiftLeft => "<<" | shiftRight => ">>" | less => "<" | greater => ">"
  | lessEqual => "<=" | greaterEqual => ">=" | equal => "==" | notEqual => "!="
  | assign => "=" | plusAssign => "+=" | minusAssign => "-=" | starAssign => "*="
  | slashAssign => "/=" | percentAssign => "%=" | leftParen => "(" | rightParen => ")"
  | leftBracket => "[" | rightBracket => "]" | comma => "," | colon => ":" | dot => "."
  | arrow => "->" | ellipsis => "..."
  | kwDef => "def" | kwReturn => "return" | kwIf => "if" | kwElif => "elif" | kwElse => "else"
  | kwWhile => "while" | kwPass => "pass" | kwGlobal => "global" | kwTrue => "True"
  | kwFalse => "False" | kwNone => "None" | kwAnd => "and" | kwOr => "or" | kwNot => "not"
  | kwLambda => "lambda"
  | other code => s!"token({code})"

def ofCode (code : Int) : Kind :=
  match code with
  | .ofNat n => all.getD n (.other code)
  | .negSucc _ => .other code

def ofName? (s : String) : Option Kind := all.find? (·.name == s)

def keywords : List Kind :=
  [.kwDef, .kwReturn, .kwIf, .kwElif, .kwElse, .kwWhile, .kwPass, .kwGlobal,
   .kwTrue, .kwFalse, .kwNone, .kwAnd, .kwOr, .kwNot, .kwLambda]

/-- The operators and delimiters, longer spellings before shorter ones, so that the first one that
fits is the longest one that fits. -/
def operators : List Kind :=
  [.ellipsis,
   .doubleStar, .doubleSlash, .shiftLeft, .shiftRight, .lessEqual, .greaterEqual, .equal,
   .notEqual, .arrow, .plusAssign, .minusAssign, .starAssign, .slashAssign, .percentAssign,
   .plus, .minus, .star, .slash, .percent, .ampersand, .pipe, .caret, .tilde, .less, .greater,
   .assign, .leftParen, .rightParen, .leftBracket, .rightBracket, .comma, .colon, .dot]

def spelling (k : Kind) : Bytes := Bytes.ofString k.name

end Kind

end Token

/-- A token. `text` is what was written, except that a string token holds the bytes the literal
stands for. -/
structure Token where
  kind : Token.Kind
  text : Bytes
  position : Position
  deriving DecidableEq, Repr, Inhabited

end BoardPython
