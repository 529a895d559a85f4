import Offside.Token

/-!
Syntax errors. Each has a position; a missing piece at the end of the input is told apart from an
unexpected token.
-/

namespace Offside

inductive ParseFault where
  | expected (what : String) (found : Token)
  | strayDedent
  | strayIndent
  | outsideLoop (keyword : String)
  | outsideFunction
  | duplicateParameter (name : String)
  | notAssignable
  | deleteNeedsIndex
  | needsParentheses (keyword : String)
  deriving DecidableEq, Repr

structure ParseError where
  fault : ParseFault
  pos : Position
  deriving DecidableEq, Repr

def ParseFault.atEnd : ParseFault → Bool
  | .expected _ found => found.kind == .stop
  | _ => false

def ParseFault.message : ParseFault → String
  | .expected what found => "expected " ++ what ++ ", got " ++ found.describe
  | .strayDedent => "unexpected DEDENT"
  | .strayIndent => "unexpected indent"
  | .outsideLoop keyword => "'" ++ keyword ++ "' outside loop"
  | .outsideFunction => "'return' outside function"
  | .duplicateParameter name => "duplicate parameter " ++ Text.quoted name
  | .notAssignable => "cannot assign to this expression"
  | .deleteNeedsIndex => "'del' needs an index expression such as xs[0]"
  | .needsParentheses keyword => "'" ++ keyword ++ "' must be parenthesized here"

namespace ParseError

def kind (e : ParseError) : String :=
  if e.fault.atEnd then "UnexpectedEndOfInput" else "UnexpectedToken"

def text (e : ParseError) : String :=
  e.pos.text ++ ": " ++ e.kind ++ ": " ++ e.fault.message

end ParseError

end Offside
