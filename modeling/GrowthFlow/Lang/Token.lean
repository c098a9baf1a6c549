/-!
# Tokens of the C subset

A token is a keyword, a built-in type word, a name, an integer or a symbol. `Token.text` is its
spelling; the lexer reads it back and the printer writes it.
-/

namespace GrowthFlow.Lang

/-- A half-open range of character positions. -/
structure Span where
  start : Nat
  stop : Nat
deriving DecidableEq, Repr

/-- The reserved words of statements. -/
inductive Keyword where
  | ifWord | elseWord | whileWord | doWord | forWord | returnWord | breakWord | continueWord
deriving DecidableEq, Repr

namespace Keyword

/-- The spelling of a keyword. -/
def text : Keyword → String
  | ifWord => "if"
  | elseWord => "else"
  | whileWord => "while"
  | doWord => "do"
  | forWord => "for"
  | returnWord => "return"
  | breakWord => "break"
  | continueWord => "continue"

/-- Every keyword once. -/
def all : List Keyword :=
  [ifWord, elseWord, whileWord, doWord, forWord, returnWord, breakWord, continueWord]

/-- The keyword with the given spelling. -/
def ofText? (word : String) : Option Keyword :=
  all.find? (·.text == word)

end Keyword

/-- Brackets, separators and operators. -/
inductive Symbol where
  | lbrace | rbrace | lparen | rparen | semicolon | comma
  | assign | plusAssign | minusAssign | timesAssign | divAssign | modAssign
  | increment | decrement
  | plus | minus | star | slash | percent
  | equal | notEqual | lessEqual | greaterEqual | less | greater
  | andAnd | orOr | bang
deriving DecidableEq, Repr

namespace Symbol

/-- The spelling of a symbol. -/
def text : Symbol → String
  | lbrace => "\x7b"
  | rbrace => "\x7d"
  | lparen => "("
  | rparen => ")"
  | semicolon => ";"
  | comma => ","
  | assign => "="
  | plusAssign => "+="
  | minusAssign => "-="
  | timesAssign => "*="
  | divAssign => "/="
  | modAssign => "%="
  | increment => "++"
  | decrement => "--"
  | plus => "+"
  | minus => "-"
  | star => "*"
  | slash => "/"
  | percent => "%"
  | equal => "=="
  | notEqual => "!="
  | lessEqual => "<="
  | greaterEqual => ">="
  | less => "<"
  | greater => ">"
  | andAnd => "&&"
  | orOr => "||"
  | bang => "!"

/-- The symbol spelled by two characters. -/
def ofPair? : Char → Char → Option Symbol
  | '+', '+' => some increment
  | '-', '-' => some decrement
  | '+', '=' => some plusAssign
  | '-', '=' => some minusAssign
  | '*', '=' => some timesAssign
  | '/', '=' => some divAssign
  | '%', '=' => some modAssign
  | '=', '=' => some equal
  | '!', '=' => some notEqual
  | '<', '=' => some lessEqual
  | '>', '=' => some greaterEqual
  | '&', '&' => some andAnd
  | '|', '|' => some orOr
  | _, _ => none

/-- The symbol spelled by one character. -/
def ofChar? : Char → Option Symbol
  | '=' => some assign
  | '+' => some plus
  | '-' => some minus
  | '*' => some star
  | '/' => some slash
  | '%' => some percent
  | '<' => some less
  | '>' => some greater
  | '!' => some bang
  | '\x7b' => some lbrace
  | '\x7d' => some rbrace
  | '(' => some lparen
  | ')' => some rparen
  | ';' => some semicolon
  | ',' => some comma
  | _ => none

end Symbol

/-- The words that name a built-in type, alone or in a row (`unsigned long`). -/
def typeWords : List String :=
  ["int", "long", "short", "char", "void", "unsigned", "signed", "float", "double", "bool", "_Bool"]

/-- A word of the source text. -/
inductive Token where
  | keyword (k : Keyword)
  | typeWord (word : String)
  | ident (name : String)
  | number (value : Int)
  | symbol (s : Symbol)
deriving DecidableEq, Repr

namespace Token

/-- The spelling of a token; integers are in decimal. -/
def text : Token → String
  | keyword k => k.text
  | typeWord word => word
  | ident name => name
  | number value => value.repr
  | symbol s => s.text

/-- The token a word of letters, digits and underscores stands for. -/
def ofWord (word : String) : Token :=
  match Keyword.ofText? word with
  | some k => keyword k
  | none => if typeWords.contains word then typeWord word else ident word

end Token

/-- A token and the characters it came from. -/
structure Lexeme where
  token : Token
  span : Span
deriving DecidableEq, Repr

end GrowthFlow.Lang
