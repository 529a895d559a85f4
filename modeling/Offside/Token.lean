import Offside.Position
import Offside.Text.Quoted

/-!
Tokens of the language. A token keeps the text it was read from; only the layout tokens, which
stand for line ends and changes of indentation, may have none.
-/

namespace Offside

inductive TokenKind where
  | keyword
  | identifier
  | integer
  | float
  | string
  | operator
  | delimiter
  | newline
  | indent
  | dedent
  | stop
  deriving DecidableEq, Repr

structure Token where
  kind : TokenKind
  lexeme : String
  pos : Position
  deriving DecidableEq, Repr

def TokenKind.word : TokenKind → String
  | .keyword => "keyword"
  | .identifier => "identifier"
  | .integer => "integer"
  | .float => "float"
  | .string => "string"
  | .operator => "operator"
  | .delimiter => "delimiter"
  | .newline => "newline"
  | .indent => "indent"
  | .dedent => "dedent"
  | .stop => "end"

def TokenKind.name : TokenKind → String
  | .keyword => "KEYWORD"
  | .identifier => "IDENTIFIER"
  | .integer => "INTEGER"
  | .float => "FLOAT"
  | .string => "STRING"
  | .operator => "OPERATOR"
  | .delimiter => "DELIMITER"
  | .newline => "NEWLINE"
  | .indent => "INDENT"
  | .dedent => "DEDENT"
  | .stop => "END"

def keywords : List String :=
  ["true", "false", "none", "if", "elif", "else", "while", "for", "in", "break", "continue",
   "pass", "def", "return", "del", "lambda", "and", "or", "not"]

/-- Operators, those of two characters before those of one. -/
def operators : List (List Char) :=
  [['=', '='], ['!', '='], ['<', '='], ['>', '='], ['+', '='], ['-', '='], ['*', '='],
   ['/', '='], ['%', '='], ['+'], ['-'], ['*'], ['/'], ['%'], ['<'], ['>'], ['=']]

def openBrackets : List Char := ['(', '[', '{']

def closeBrackets : List Char := [')', ']', '}']

def delimiters : List Char := openBrackets ++ closeBrackets ++ [',', ':', '.']

namespace Token

def is (t : Token) (kind : TokenKind) (lexeme : String) : Bool :=
  t.kind == kind && t.lexeme == lexeme

def describe (t : Token) : String :=
  match t.kind with
  | .newline => "NEWLINE"
  | .indent => "INDENT"
  | .dedent => "DEDENT"
  | .stop => "end of input"
  | kind => kind.word ++ " " ++ Text.quoted t.lexeme

def display (t : Token) : String :=
  "Token(" ++ t.kind.name ++ ", " ++ Text.quoted t.lexeme ++ ", " ++ t.pos.text ++ ")"

end Token

end Offside
