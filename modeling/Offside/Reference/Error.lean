import Offside.Parser.Error
import Offside.Fault

/-!
Errors of the reference grammar. Those of the parser that is generated from it come with what that
parser tells about them.
-/

namespace Offside.Reference

/-- Why the generated parser refuses a text: a dedent to no open level, a token or a character that
cannot go on, or anything else. A place that is not known has the line and the column -1. -/
inductive LarkError where
  | dedent (message : String)
  | token (terminal text : String) (expected : List String) (pos : Position)
  | character (c : Char) (pos : Position)
  | input (pos : Position)
  deriving DecidableEq, Repr

/-- Why a text is not of the language. -/
inductive Objection where
  | unevenDedent (message : String)
  | unexpectedToken (terminal text : String) (expected : List String)
  | unexpectedCharacter (c : Char)
  | unexpectedEnd
  | ofStatement (f : ParseFault)
  deriving DecidableEq, Repr

namespace Objection

def expectation (expected : List String) : String :=
  if expected.isEmpty then "nothing"
  else ", ".intercalate (expected.mergeSort fun a b => decide (a ≤ b))

def message : Objection → String
  | unevenDedent message => message
  | unexpectedToken terminal text expected =>
    "unexpected " ++ terminal ++ " " ++ Text.quoted text ++ ", expected one of: " ++
      expectation expected
  | unexpectedCharacter c => "unexpected character " ++ Text.quoted (String.singleton c)
  | unexpectedEnd => "unexpected end of input"
  | ofStatement f => f.message

def kind : Objection → String
  | unexpectedToken "$END" _ _ | unexpectedEnd => "UnexpectedEndOfInput"
  | _ => "UnexpectedToken"

end Objection

structure GrammarError where
  objection : Objection
  pos : Position
  deriving DecidableEq, Repr

def GrammarError.text (e : GrammarError) : String :=
  e.pos.text ++ ": " ++ e.objection.kind ++ ": " ++ e.objection.message

/-- Something wrong in a text that is of the grammar. -/
inductive Problem where
  | error (e : GrammarError)
  | fault (f : Fault)
  deriving Repr

end Offside.Reference
