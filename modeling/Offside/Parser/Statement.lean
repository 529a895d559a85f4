import Offside.Parser.Expression

/-!
Statements by recursive descent. A statement that fails is recorded as an error and passed over
together with the block that hangs off its line, and reading goes on with the next one, so one
run reports every independent error.
-/

namespace Offside.Parser

def augmented? (op : String) : Option String :=
  if op = "+=" then some "+" else if op = "-=" then some "-" else if op = "*=" then some "*"
  else if op = "/=" then some "/" else if op = "%=" then some "%" else none

def isAssignable : Node → Bool
  | .identifier .. | .index .. => true
  | _ => false

def simpleStatement (fuel : Nat) : Rule Node := do
  let start ← peek
  let expr ← expression fuel loosest
  let t ← peek
  let assigns := t.kind == .operator && (t.lexeme == "=" || (augmented? t.lexeme).isSome)
  if assigns then
    if !isAssignable expr then fail .notAssignable expr.position
    discard advance
    let value ← expression fuel loosest
    endOfLine
    match augmented? t.lexeme with
    | some op => return .augAssign start.pos expr op value
    | none => return .assign start.pos expr value
  else
    endOfLine
    return .exprStmt start.pos expr

def returnStatement (fuel : Nat) (context : Context) : Rule Node := do
  let keyword ← peek
  if !context.inFunction then fail .outsideFunction keyword.pos
  discard advance
  let value ← if ← isNextKind .newline then pure .hole else expression fuel loosest
  endOfLine
  return .returnStmt keyword.pos value

def loopStatement (context : Context) (build : Place → Node) : Rule Node := do
  let keyword ← peek
  if !context.inLoop then fail (.outsideLoop keyword.lexeme) keyword.pos
  discard advance
  endOfLine
  return build keyword.pos

def passStatement : Rule Node := do
  let keyword ← advance
  endOfLine
  return .passStmt keyword.pos

def deleteStatement (fuel : Nat) : Rule Node := do
  let keyword ← advance
  let target ← expression fuel loosest
  match target with
  | .index .. =>
    endOfLine
    return .delete keyword.pos target
  | _ => fail .deleteNeedsIndex target.position

/-- Runs a rule for a statement; if it fails, records the error and recovers. -/
def recovering (rule : Rule Node) : Rule (Option Node) :=
  tryCatch (some <$> rule) fun
    | .problem e => do
      record e
      synchronize
      return none
    | halt => throw halt

mutual
/-- Statements up to the end of the input or, inside a block, up to the end of the block. -/
def statements : Nat → Context → Bool → Rule (List Node)
  | 0, _, _ => throw .starved
  | fuel + 1, context, topLevel => do
    skipNewlines
    let t ← peek
    if t.kind = .stop then return []
    else if t.kind = .dedent then
      if !topLevel then return []
      record ⟨.strayDedent, t.pos⟩
      discard advance
      statements fuel context topLevel
    else
      match ← recovering (statement fuel context) with
      | some s => return s :: (← statements fuel context topLevel)
      | none => statements fuel context topLevel
def statement : Nat → Context → Rule Node
  | 0, _ => throw .starved
  | fuel + 1, context => do
    let t ← peek
    if t.kind = .keyword then
      match t.lexeme with
      | "if" =>
        discard advance
        let condition ← expression fuel loosest
        let body ← block fuel context "'if' condition"
        let branches ← elifs fuel context [(condition, body)]
        if ← accept .keyword "else" then
          return .ifStmt t.pos branches (some (← block fuel context "'else'"))
        else return .ifStmt t.pos branches none
      | "while" =>
        discard advance
        let condition ← expression fuel loosest
        let body ← block fuel { context with inLoop := true } "'while' condition"
        return .whileStmt t.pos condition body
      | "for" =>
        discard advance
        let name ← expectKind .identifier "a loop variable name after 'for'"
        discard (expect .keyword "in" "'in' after the loop variable")
        let iterable ← expression fuel loosest
        let body ← block fuel { context with inLoop := true } "'for' clause"
        return .forStmt t.pos name.lexeme iterable body
      | "def" =>
        discard advance
        let name ← expectKind .identifier "a function name after 'def'"
        discard (expect .delimiter "(" "'(' after the function name")
        let params ← parameters ")" "a parameter name" fuel []
        discard (expect .delimiter ")" "')' after parameters")
        let body ← block fuel ⟨false, true⟩ "function signature"
        return .functionDef t.pos name.lexeme (params.map Json.string) body
      | "return" => returnStatement fuel context
      | "break" => loopStatement context .breakStmt
      | "continue" => loopStatement context .continueStmt
      | "pass" => passStatement
      | "del" => deleteStatement fuel
      | _ => simpleStatement fuel
    else if t.kind = .indent then fail .strayIndent t.pos
    else simpleStatement fuel
/-- A colon, the end of the line and an indented list of statements. -/
def block : Nat → Context → String → Rule (List Node)
  | 0, _, _ => throw .starved
  | fuel + 1, context, header => do
    discard (expect .delimiter ":" ("':' after " ++ header))
    discard (expectKind .newline ("end of line after " ++ header ++ ":"))
    discard (expectKind .indent ("an indented block after " ++ header))
    let body ← statements fuel context false
    discard (expectKind .dedent "end of block")
    return body
def elifs : Nat → Context → List (Node × List Node) → Rule (List (Node × List Node))
  | 0, _, _ => throw .starved
  | fuel + 1, context, branches => do
    if ← accept .keyword "elif" then
      let condition ← expression fuel loosest
      let body ← block fuel context "'elif' condition"
      elifs fuel context (branches ++ [(condition, body)])
    else return branches
end

/-! ### Counting

Programs are read with the loops and functions around the place counted. The counts go up before a
block and come down after it, whether it is read or a rule in it fails; what the rules may read at a
place depends on no more than whether they are zero.
-/

/-- The loops around a place, up to the innermost function, and the functions around it. -/
structure Depth where
  loops : Nat
  functions : Nat
  deriving DecidableEq, Repr

def Depth.context (d : Depth) : Context := ⟨d.loops != 0, d.functions != 0⟩

/-- A rule that counts. The counts survive a failing rule as the cursor does. -/
abbrev Counted (α : Type) := EStateM Halt (Cursor × Depth) α

namespace Counted

variable {α : Type}

/-- What a rule gives, with counts beside the cursor. -/
def beside (d : Depth) : EStateM.Result Halt Cursor α → EStateM.Result Halt (Cursor × Depth) α
  | .ok a c => .ok a (c, d)
  | .error e c => .error e (c, d)

/-- A rule that looks at no count. -/
def lift (rule : Rule α) : Counted α := fun (c, d) => beside d (rule c)

instance : MonadLift (EStateM Halt Cursor) (EStateM Halt (Cursor × Depth)) := ⟨lift⟩

def depth : Counted Depth := do return (← get).2

def setDepth (d : Depth) : Counted Unit := modify fun s => (s.1, d)

/-- A rule inside one more loop. -/
def inLoop (rule : Counted α) : Counted α := do
  let d ← depth
  setDepth { d with loops := d.loops + 1 }
  try rule
  finally
    let d ← depth
    setDepth { d with loops := d.loops - 1 }

/-- A rule inside one more function, where no loop has begun. -/
def inFunction (rule : Counted α) : Counted α := do
  let before ← depth
  setDepth ⟨0, before.functions + 1⟩
  try rule
  finally
    let d ← depth
    setDepth ⟨before.loops, d.functions - 1⟩

/-- `recovering` for a rule that counts. -/
def recovering (rule : Counted Node) : Counted (Option Node) :=
  tryCatch (some <$> rule) fun
    | .problem e => do
      record e
      synchronize
      return none
    | halt => throw halt

mutual
def statements : Nat → Bool → Counted (List Node)
  | 0, _ => throw .starved
  | fuel + 1, topLevel => do
    skipNewlines
    let t ← peek
    if t.kind = .stop then return []
    else if t.kind = .dedent then
      if !topLevel then return []
      record ⟨.strayDedent, t.pos⟩
      discard advance
      statements fuel topLevel
    else
      match ← recovering (statement fuel) with
      | some s => return s :: (← statements fuel topLevel)
      | none => statements fuel topLevel
def statement : Nat → Counted Node
  | 0 => throw .starved
  | fuel + 1 => do
    let t ← peek
    if t.kind = .keyword then
      match t.lexeme with
      | "if" =>
        discard advance
        let condition ← expression fuel loosest
        let body ← block fuel "'if' condition"
        let branches ← elifs fuel [(condition, body)]
        if ← accept .keyword "else" then
          return .ifStmt t.pos branches (some (← block fuel "'else'"))
        else return .ifStmt t.pos branches none
      | "while" =>
        discard advance
        let condition ← expression fuel loosest
        let body ← inLoop (block fuel "'while' condition")
        return .whileStmt t.pos condition body
      | "for" =>
        discard advance
        let name ← expectKind .identifier "a loop variable name after 'for'"
        discard (expect .keyword "in" "'in' after the loop variable")
        let iterable ← expression fuel loosest
        let body ← inLoop (block fuel "'for' clause")
        return .forStmt t.pos name.lexeme iterable body
      | "def" =>
        discard advance
        let name ← expectKind .identifier "a function name after 'def'"
        discard (expect .delimiter "(" "'(' after the function name")
        let params ← parameters ")" "a parameter name" fuel []
        discard (expect .delimiter ")" "')' after parameters")
        let body ← inFunction (block fuel "function signature")
        return .functionDef t.pos name.lexeme (params.map Json.string) body
      | "return" => returnStatement fuel (← depth).context
      | "break" => loopStatement (← depth).context .breakStmt
      | "continue" => loopStatement (← depth).context .continueStmt
      | "pass" => passStatement
      | "del" => deleteStatement fuel
      | _ => simpleStatement fuel
    else if t.kind = .indent then lift (fail .strayIndent t.pos)
    else simpleStatement fuel
def block : Nat → String → Counted (List Node)
  | 0, _ => throw .starved
  | fuel + 1, header => do
    discard (expect .delimiter ":" ("':' after " ++ header))
    discard (expectKind .newline ("end of line after " ++ header ++ ":"))
    discard (expectKind .indent ("an indented block after " ++ header))
    let body ← statements fuel false
    discard (expectKind .dedent "end of block")
    return body
def elifs : Nat → List (Node × List Node) → Counted (List (Node × List Node))
  | 0, _ => throw .starved
  | fuel + 1, branches => do
    if ← accept .keyword "elif" then
      let condition ← expression fuel loosest
      let body ← block fuel "'elif' condition"
      elifs fuel (branches ++ [(condition, body)])
    else return branches
end

end Counted

end Offside.Parser
