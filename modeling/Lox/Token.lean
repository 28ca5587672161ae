import Lox.Text.Position
/-!
Tokens. What a literal stands for belongs to its kind, so a kind alone says all that a token means
beyond its place.
-/
namespace Lox

inductive Literal
  | nil
  | bool (value : Bool)
  | number (value : Float)
  | string (value : String)
deriving DecidableEq

inductive Keyword
  | and_ | class_ | else_ | for_ | fun_ | if_ | or_ | print | return_ | super | this | var | while_
deriving DecidableEq

inductive Kind
  | leftParen | rightParen | leftBrace | rightBrace
  | comma | dot | minus | plus | semicolon | slash | star
  | bang | notEqual | equal | equalEqual | greater | greaterEqual | less | lessEqual
  | identifier
  | literal (value : Literal)
  | keyword (word : Keyword)
deriving DecidableEq

namespace Kind

def words : List (String × Kind) := [
  ("and", keyword .and_), ("class", keyword .class_), ("else", keyword .else_),
  ("false", literal (.bool false)), ("for", keyword .for_), ("fun", keyword .fun_),
  ("if", keyword .if_), ("nil", literal .nil), ("or", keyword .or_), ("print", keyword .print),
  ("return", keyword .return_), ("super", keyword .super), ("this", keyword .this),
  ("true", literal (.bool true)), ("var", keyword .var), ("while", keyword .while_)]

def ofWord (word : String) : Kind := (words.lookup word).getD identifier

/-- Signs that stand alone, whatever follows them. -/
def signs : List (Char × Kind) := [
  ('(', leftParen), (')', rightParen), ('{', leftBrace), ('}', rightBrace), (',', comma),
  ('.', dot), ('-', minus), ('+', plus), (';', semicolon), ('*', star), ('/', slash)]

/-- Signs that an equals sign extends: the kind alone and the kind of the pair. -/
def extensibleSigns : List (Char × Kind × Kind) := [
  ('!', bang, notEqual), ('=', equal, equalEqual), ('<', less, lessEqual),
  ('>', greater, greaterEqual)]

def name : Kind → String
  | leftParen => "LPAREN"
  | rightParen => "RPAREN"
  | leftBrace => "LBRACE"
  | rightBrace => "RBRACE"
  | comma => "COMMA"
  | dot => "DOT"
  | minus => "MINUS"
  | plus => "PLUS"
  | semicolon => "SEMICOLON"
  | slash => "SLASH"
  | star => "STAR"
  | bang => "BANG"
  | notEqual => "NOTEQ"
  | equal => "EQUAL"
  | equalEqual => "EQEQ"
  | greater => "GT"
  | greaterEqual => "GTE"
  | less => "LT"
  | lessEqual => "LTE"
  | identifier => "IDENT"
  | literal (.string _) => "STRING"
  | literal (.number _) => "NUMBER"
  | literal (.bool _) => "BOOL"
  | literal .nil => "NIL"
  | keyword .and_ => "AND"
  | keyword .class_ => "CLASS"
  | keyword .else_ => "ELSE"
  | keyword .for_ => "FOR"
  | keyword .fun_ => "FUN"
  | keyword .if_ => "IF"
  | keyword .or_ => "OR"
  | keyword .print => "PRINT"
  | keyword .return_ => "RETURN"
  | keyword .super => "SUPER"
  | keyword .this => "THIS"
  | keyword .var => "VAR"
  | keyword .while_ => "WHILE"

end Kind

/-- An occurrence of a kind: the characters it was written with and the place of the first. -/
structure Token where
  kind : Kind
  lexeme : String
  position : Position
deriving DecidableEq

def Token.line (t : Token) : Nat := t.position.line

end Lox
