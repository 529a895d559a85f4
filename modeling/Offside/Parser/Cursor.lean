import Offside.Fault
import Offside.Parser.Error

/-!
Reading a list of tokens. A cursor holds what is left of the list, the token that every look
beyond its end shows, and the errors recorded so far; it survives a failing rule, so that
reading can resume where the rule gave up.
-/

namespace Offside.Parser

structure Cursor where
  rest : List Token
  stop : Token
  errors : List ParseError
  deriving DecidableEq, Repr

/-- A cursor at the start of a list. The last token stands for the end if it marks it, else an end
is supplied at its position. -/
def Cursor.ofTokens (ts : List Token) : Cursor :=
  match ts.getLast? with
  | none => ⟨[], ⟨.stop, "", .start⟩, []⟩
  | some last =>
    if last.kind = .stop then ⟨ts.dropLast, last, []⟩ else ⟨ts, ⟨.stop, "", last.pos⟩, []⟩

/-- Why a rule stops: an error to recover from, a condition that ends parsing, or lack of fuel. -/
inductive Halt where
  | problem (e : ParseError)
  | fault (f : Fault)
  | starved
  deriving Repr

abbrev Rule (α : Type) := EStateM Halt Cursor α

/-- The tokens parsing is allowed to use at one place: loops and functions around it. -/
structure Context where
  inLoop : Bool
  inFunction : Bool
  deriving DecidableEq, Repr

def peek : Rule Token := do
  let c ← get
  return c.rest.headD c.stop

def peekSecond : Rule Token := do
  let c ← get
  return (c.rest.drop 1).headD c.stop

/-- Passes over the next token; the end stays in place. -/
def advance : Rule Token := do
  let t ← peek
  modify fun c => { c with rest := c.rest.drop 1 }
  return t

def fail {α : Type} (fault : ParseFault) (pos : Position) : Rule α :=
  throw (.problem ⟨fault, pos⟩)

/-- Fails because `what` is missing at the next token. -/
def missing {α : Type} (what : String) : Rule α := do
  let t ← peek
  fail (.expected what t) t.pos

def isNext (kind : TokenKind) (lexeme : String) : Rule Bool := do
  return (← peek).is kind lexeme

def isNextKind (kind : TokenKind) : Rule Bool := do
  return (← peek).kind == kind

/-- Passes over the next token if it is the given one. -/
def accept (kind : TokenKind) (lexeme : String) : Rule Bool := do
  if ← isNext kind lexeme then
    discard advance
    return true
  else return false

def expect (kind : TokenKind) (lexeme what : String) : Rule Token := do
  if ← isNext kind lexeme then advance else missing what

def expectKind (kind : TokenKind) (what : String) : Rule Token := do
  if ← isNextKind kind then advance else missing what

def endOfLine : Rule Unit := discard (expectKind .newline "end of line")

def record (e : ParseError) : Rule Unit :=
  modify fun c => { c with errors := c.errors ++ [e] }

/-- What is left after the block that the list starts in; `depth` levels are open in it. -/
def dropBlock (depth : Nat) : List Token → List Token
  | [] => []
  | t :: rest =>
    match t.kind with
    | .stop => t :: rest
    | .indent => dropBlock (depth + 1) rest
    | .dedent => if depth ≤ 1 then rest else dropBlock (depth - 1) rest
    | _ => dropBlock depth rest

/-- What is left after the line that the list starts in and the block that hangs off it. A DEDENT
closes the enclosing block, so it stays. -/
def dropLine : List Token → List Token
  | [] => []
  | t :: rest =>
    match t.kind with
    | .stop | .dedent => t :: rest
    | .newline =>
      match rest with
      | [] => []
      | u :: _ => if u.kind = .indent then dropBlock 0 rest else rest
    | _ => dropLine rest

/-- What is left after the statement that failed here. -/
def dropStatement (ts : List Token) : List Token :=
  match ts with
  | [] => []
  | t :: _ => if t.kind = .indent then dropBlock 0 ts else dropLine ts

def synchronize : Rule Unit :=
  modify fun c => { c with rest := dropStatement c.rest }

def skipNewlines : Rule Unit :=
  modify fun c => { c with rest := c.rest.dropWhile (·.kind == .newline) }

end Offside.Parser
