import Offside.Parser.Statement

/-!
Programs from tokens and from source text.
-/

namespace Offside

inductive ReadError where
  | lex (e : LexError)
  | parse (errors : List ParseError)
  | fault (f : Fault)
  deriving Repr

namespace Parser

/-- Enough for any list of that length: a nested rule takes a token every few levels. -/
def fuelFor (ts : List Token) : Nat := 8 * ts.length + 16

/-- The program a list of tokens denotes, or every error found in it. -/
def parse (ts : List Token) : Except ReadError Node :=
  match Counted.statements (fuelFor ts) true (Cursor.ofTokens ts, ⟨0, 0⟩) with
  | .ok body (c, _) =>
    if c.errors.isEmpty then .ok (.program Position.start body) else .error (.parse c.errors)
  | .error (.problem e) (c, _) => .error (.parse (c.errors ++ [e]))
  | .error (.fault f) _ => .error (.fault f)
  | .error .starved (c, _) => .error (.parse c.errors)

end Parser

def parseProgram (source : String) : Except ReadError Node :=
  match tokenize source with
  | .ok ts => Parser.parse ts
  | .error e => .error (.lex e)

end Offside
