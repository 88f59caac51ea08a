import ScriptMachine.Decimal.Layout
import ScriptMachine.Source.Span

/-!
# Tokens

The vocabulary of the language: reserved words, symbols and the three kinds of token that carry
a content. Blanks and comments are no tokens.
-/

namespace ScriptMachine

/-- The reserved words. -/
inductive Keyword
  | let_ | if_ | else_ | true_ | false_ | null_ | while_ | do_ | for_ | def_ | return_ | class_
  | this_ | super_ | print_
deriving DecidableEq, Repr

/-- The punctuation and the operators. -/
inductive Symbol
  | leftParen | rightParen | leftBrace | rightBrace | leftBracket | rightBracket
  | dot | colon | comma | semicolon
  | plus | plusAssign | minus | minusAssign | star | starAssign | slash | slashAssign
  | bang | notEqual | assign | equal | greater | greaterEqual | less | lessEqual | both | either
deriving DecidableEq, Repr

/-- A token of the language. -/
inductive Token
  | keyword (k : Keyword)
  | symbol (s : Symbol)
  | number (n : Float)
  | text (content : String)
  | name (spelling : String)

/-- How a reserved word is written. -/
def Keyword.spelling : Keyword → String
  | let_ => "let"
  | if_ => "if"
  | else_ => "else"
  | true_ => "true"
  | false_ => "false"
  | null_ => "null"
  | while_ => "while"
  | do_ => "do"
  | for_ => "for"
  | def_ => "def"
  | return_ => "return"
  | class_ => "class"
  | this_ => "this"
  | super_ => "super"
  | print_ => "print"

/-- The reserved words in their order of declaration. -/
def Keyword.all : List Keyword :=
  [let_, if_, else_, true_, false_, null_, while_, do_, for_, def_, return_, class_, this_,
    super_, print_]

/-- The reserved word with a given spelling. -/
def Keyword.ofSpelling? (s : String) : Option Keyword :=
  Keyword.all.find? (fun k => k.spelling = s)

/-- How a symbol is written. -/
def Symbol.spelling : Symbol → String
  | leftParen => "("
  | rightParen => ")"
  | leftBrace => "\x7b"
  | rightBrace => "\x7d"
  | leftBracket => "["
  | rightBracket => "]"
  | dot => "."
  | colon => ":"
  | comma => ","
  | semicolon => ";"
  | plus => "+"
  | plusAssign => "+="
  | minus => "-"
  | minusAssign => "-="
  | star => "*"
  | starAssign => "*="
  | slash => "/"
  | slashAssign => "/="
  | bang => "!"
  | notEqual => "!="
  | assign => "="
  | equal => "=="
  | greater => ">"
  | greaterEqual => ">="
  | less => "<"
  | lessEqual => "<="
  | both => "&&"
  | either => "||"

/-- The symbol of one character. -/
def Symbol.single? : Char → Option Symbol
  | '(' => some leftParen
  | ')' => some rightParen
  | '\x7b' => some leftBrace
  | '\x7d' => some rightBrace
  | '[' => some leftBracket
  | ']' => some rightBracket
  | '.' => some dot
  | ':' => some colon
  | ',' => some comma
  | ';' => some semicolon
  | '+' => some plus
  | '-' => some minus
  | '*' => some star
  | '/' => some slash
  | '!' => some bang
  | '=' => some assign
  | '>' => some greater
  | '<' => some less
  | _ => none

/-- The symbol of two characters. -/
def Symbol.pair? : Char → Char → Option Symbol
  | '+', '=' => some plusAssign
  | '-', '=' => some minusAssign
  | '*', '=' => some starAssign
  | '/', '=' => some slashAssign
  | '!', '=' => some notEqual
  | '=', '=' => some equal
  | '>', '=' => some greaterEqual
  | '<', '=' => some lessEqual
  | '&', '&' => some both
  | '|', '|' => some either
  | _, _ => none

/-- How a message names a token. -/
def Token.describe : Token → String
  | .keyword k => s!"'{k.spelling}'"
  | .symbol s => s!"'{s.spelling}'"
  | .number n => s!"number {Decimal.positional n}"
  | .text _ => "string"
  | .name spelling => s!"identifier '{spelling}'"

/-- Whether a token is a given symbol. -/
def Token.isSymbol (t : Token) (s : Symbol) : Bool :=
  match t with
  | .symbol u => u = s
  | _ => false

/-- Whether a token is a given reserved word. -/
def Token.isKeyword (t : Token) (k : Keyword) : Bool :=
  match t with
  | .keyword u => u = k
  | _ => false

/-- A token with the text it was read from and the line it starts on. -/
structure Lexeme where
  token : Token
  span : Source.Span
  line : UInt32

/-- What is wrong with text that is no token. -/
inductive Token.Problem
  | unterminatedString
  | unterminatedComment
  | unexpectedChar (c : Char)
deriving DecidableEq

namespace Token.Problem

/-- The stable code of a problem. -/
def code : Token.Problem → String
  | unterminatedString => "NYR-L001"
  | unterminatedComment => "NYR-L002"
  | unexpectedChar _ => "NYR-L003"

/-- What a problem is, in words. -/
def message : Token.Problem → String
  | unterminatedString => "unterminated string"
  | unterminatedComment => "unterminated block comment"
  | unexpectedChar c => s!"unexpected character '{c}'"

/-- The mend to suggest, where one is obvious. -/
def suggestion? : Token.Problem → Option String
  | unterminatedString => some "close the string with '\"'"
  | unterminatedComment => some "close the comment with '*/'"
  | unexpectedChar '&' => some "logical and is written '&&'"
  | unexpectedChar '|' => some "logical or is written '||'"
  | unexpectedChar '\'' => some "strings use double quotes: \"...\""
  | unexpectedChar _ => none

end Token.Problem

end ScriptMachine
