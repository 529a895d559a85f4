import Offside.Parser.Cursor
import Offside.Token.Lexer

/-!
Expressions by precedence climbing. Binary operators associate to the left; `not` stands between
`and` and the comparisons, unary minus above the products, and `lambda` is read at the loosest
level only. Calls, indexing and member access bind tightest.
-/

namespace Offside.Parser

def precedence? (op : String) : Option Nat :=
  if op = "or" then some 1
  else if op = "and" then some 2
  else if op = "==" ∨ op = "!=" ∨ op = "<" ∨ op = ">" ∨ op = "<=" ∨ op = ">=" ∨ op = "in"
      ∨ op = "not in" then some 4
  else if op = "+" ∨ op = "-" then some 5
  else if op = "*" ∨ op = "/" ∨ op = "%" then some 6
  else none

def loosest : Nat := 1

def notLevel : Nat := 3

def minusLevel : Nat := 7

/-- A binary operator at the next tokens: its text, its level and how many tokens it takes. -/
def binaryOperator? (t second : Token) : Option (String × Nat × Nat) :=
  if t.kind = .operator then
    (precedence? t.lexeme).map fun level => (t.lexeme, level, 1)
  else if t.kind = .keyword then
    if t.lexeme = "and" ∨ t.lexeme = "or" ∨ t.lexeme = "in" then
      (precedence? t.lexeme).map fun level => (t.lexeme, level, 1)
    else if t.lexeme = "not" ∧ second.is .keyword "in" then
      (precedence? "not in").map fun level => ("not in", level, 2)
    else none
  else none

def advanceBy : Nat → Rule Unit
  | 0 => pure ()
  | n + 1 => do
    discard advance
    advanceBy n

def parameter (what : String) (params : List String) : Rule String := do
  let name ← expectKind .identifier what
  if params.contains name.lexeme then fail (.duplicateParameter name.lexeme) name.pos
  return name.lexeme

/-- Parameters up to a closing delimiter, which stays; a trailing comma is allowed. -/
def parameters (close what : String) : Nat → List String → Rule (List String)
  | 0, _ => throw .starved
  | fuel + 1, params => do
    if ← isNext .delimiter close then return params
    let params := params ++ [← parameter what params]
    if ← accept .delimiter "," then parameters close what fuel params else return params

/-- A literal, a name or a constant; none if the token starts something longer or nothing. -/
def atom? (t : Token) : Option (Except Fault Node) :=
  match t.kind with
  | .integer =>
    some <| match Number.readInteger? t.lexeme.toList with
      | some n => .ok (.literal t.pos (.integer n) "Integer")
      | none => .error (.invalidInteger t.lexeme)
  | .float =>
    some <| match Number.readFloat? t.lexeme.toList with
      | some x => .ok (.literal t.pos (.float x) "Float")
      | none => .error (.invalidFloat t.lexeme)
  | .string => some (.ok (.literal t.pos (.string (stringValue t.lexeme)) "String"))
  | .identifier => some (.ok (.identifier t.pos t.lexeme))
  | .keyword =>
    if t.lexeme = "true" then some (.ok (.literal t.pos (.boolean true) "Boolean"))
    else if t.lexeme = "false" then some (.ok (.literal t.pos (.boolean false) "Boolean"))
    else if t.lexeme = "none" then some (.ok (.literal t.pos .null "None"))
    else none
  | _ => none

mutual
/-- An expression whose binary operators bind at `level` or tighter. -/
def expression : Nat → Nat → Rule Node
  | 0, _ => throw .starved
  | fuel + 1, level => do climb fuel level (← operand fuel level)
/-- Extends `left` by operators that bind at `level` or tighter. -/
def climb : Nat → Nat → Node → Rule Node
  | 0, _, _ => throw .starved
  | fuel + 1, level, left => do
    let t ← peek
    match binaryOperator? t (← peekSecond) with
    | none => return left
    | some (op, opLevel, width) =>
      if opLevel < level then return left
      advanceBy width
      let right ← expression fuel (opLevel + 1)
      climb fuel level (.binaryOp t.pos op left right)
def operand : Nat → Nat → Rule Node
  | 0, _ => throw .starved
  | fuel + 1, level => do
    let t ← peek
    if t.is .keyword "not" then
      if notLevel < level then fail (.needsParentheses "not") t.pos
      discard advance
      return .unaryOp t.pos "not" (← expression fuel notLevel)
    else if t.is .operator "-" then
      discard advance
      return .unaryOp t.pos "-" (← expression fuel minusLevel)
    else if t.is .keyword "lambda" then
      if loosest < level then fail (.needsParentheses "lambda") t.pos
      discard advance
      let params ← parameters ":" "a parameter name or ':'" fuel []
      discard (expect .delimiter ":" "':' after lambda parameters")
      return .lambda t.pos (params.map Json.string) (← expression fuel loosest)
    else postfixes fuel (← primary fuel)
def postfixes : Nat → Node → Rule Node
  | 0, _ => throw .starved
  | fuel + 1, node => do
    if ← accept .delimiter "(" then
      let args ← sequence fuel ")" "',' or ')' after an argument" []
      postfixes fuel (.call node.pos node args)
    else if ← accept .delimiter "[" then
      let index ← expression fuel loosest
      discard (expect .delimiter "]" "']' after index")
      postfixes fuel (.index node.pos node index)
    else if ← accept .delimiter "." then
      let name ← expectKind .identifier "an attribute name after '.'"
      postfixes fuel (.member node.pos node name.lexeme)
    else return node
/-- Expressions between commas up to and including `close`; a trailing comma is allowed. -/
def sequence : Nat → String → String → List Node → Rule (List Node)
  | 0, _, _, _ => throw .starved
  | fuel + 1, close, what, items => do
    if ← accept .delimiter close then return items
    let items := items ++ [← expression fuel loosest]
    if ← accept .delimiter "," then sequence fuel close what items
    else
      discard (expect .delimiter close what)
      return items
/-- Entries of a mapping up to and including its closing brace. -/
def entries : Nat → List (Node × Node) → Rule (List (Node × Node))
  | 0, _ => throw .starved
  | fuel + 1, read => do
    if ← accept .delimiter "\x7d" then return read
    let key ← expression fuel loosest
    discard (expect .delimiter ":" "':' after a mapping key")
    let read := read ++ [(key, ← expression fuel loosest)]
    if ← accept .delimiter "," then entries fuel read
    else
      discard (expect .delimiter "\x7d" "',' or '\x7d' after a mapping entry")
      return read
def primary : Nat → Rule Node
  | 0 => throw .starved
  | fuel + 1 => do
    let t ← peek
    match atom? t with
    | some result =>
      discard advance
      match result with
      | .ok node => return node
      | .error f => throw (.fault f)
    | none =>
      if t.is .delimiter "(" then
        discard advance
        let inner ← expression fuel loosest
        discard (expect .delimiter ")" "')' to close '('")
        return inner
      else if t.is .delimiter "[" then
        discard advance
        return .listLiteral t.pos (← sequence fuel "]" "',' or ']' after a list element" [])
      else if t.is .delimiter "\x7b" then
        discard advance
        return .mapLiteral t.pos (← entries fuel [])
      else missing "an expression"
end

end Offside.Parser
