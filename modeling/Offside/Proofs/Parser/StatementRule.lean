import Offside.Proofs.Parser.Rule

/-!
The rules for statements, applied to a cursor. The compound statements are named after their
keyword is passed.
-/

namespace Offside.Parser

variable {α β : Type}

def ifTail (fuel : Nat) (context : Context) (pos : Position) : Rule Node := do
  let condition ← expression fuel loosest
  let body ← block fuel context "'if' condition"
  let branches ← elifs fuel context [(condition, body)]
  if ← accept .keyword "else" then
    let elseBody ← block fuel context "'else'"
    pure (.ifStmt pos branches (some elseBody))
  else pure (.ifStmt pos branches none)

def whileTail (fuel : Nat) (context : Context) (pos : Position) : Rule Node := do
  let condition ← expression fuel loosest
  let body ← block fuel { context with inLoop := true } "'while' condition"
  pure (.whileStmt pos condition body)

def forTail (fuel : Nat) (context : Context) (pos : Position) : Rule Node := do
  let name ← expectKind .identifier "a loop variable name after 'for'"
  discard (expect .keyword "in" "'in' after the loop variable")
  let iterable ← expression fuel loosest
  let body ← block fuel { context with inLoop := true } "'for' clause"
  pure (.forStmt pos name.lexeme iterable body)

def defTail (fuel : Nat) (pos : Position) : Rule Node := do
  let name ← expectKind .identifier "a function name after 'def'"
  discard (expect .delimiter "(" "'(' after the function name")
  let params ← parameters ")" "a parameter name" fuel []
  discard (expect .delimiter ")" "')' after parameters")
  let body ← block fuel ⟨false, true⟩ "function signature"
  pure (.functionDef pos name.lexeme (params.map Json.string) body)

def wordRule (fuel : Nat) (context : Context) (t : Token) : Rule Node :=
  if t.lexeme = "if" then discard advance >>= fun _ => ifTail fuel context t.pos
  else if t.lexeme = "while" then discard advance >>= fun _ => whileTail fuel context t.pos
  else if t.lexeme = "for" then discard advance >>= fun _ => forTail fuel context t.pos
  else if t.lexeme = "def" then discard advance >>= fun _ => defTail fuel t.pos
  else if t.lexeme = "return" then returnStatement fuel context
  else if t.lexeme = "break" then loopStatement context .breakStmt
  else if t.lexeme = "continue" then loopStatement context .continueStmt
  else if t.lexeme = "pass" then passStatement
  else if t.lexeme = "del" then deleteStatement fuel
  else simpleStatement fuel

theorem rule_congr {x y : Rule α} (h : x = y) (c : Cursor) : x c = y c := by rw [h]

theorem statement_succ (fuel : Nat) (context : Context) (c : Cursor) :
    statement (fuel + 1) context c =
      if c.next.kind = .keyword then wordRule fuel context c.next c
      else if c.next.kind = .indent then .error (.problem ⟨.strayIndent, c.next.pos⟩) c
      else simpleStatement fuel c := by
  rw [statement, peek_bind]
  split
  · refine rule_congr ?_ c
    unfold wordRule
    split
    case h_10 => simp_all
    all_goals
      next h =>
        simp only [h]
        rfl
  · split <;> rfl

theorem block_succ (fuel : Nat) (context : Context) (header : String) (c : Cursor) :
    block (fuel + 1) context header c =
      (discard (expect .delimiter ":" ("':' after " ++ header)) >>= fun _ =>
        discard (expectKind .newline ("end of line after " ++ header ++ ":")) >>= fun _ =>
        discard (expectKind .indent ("an indented block after " ++ header)) >>= fun _ =>
        statements fuel context false >>= fun body =>
        discard (expectKind .dedent "end of block") >>= fun _ => pure body) c := by
  rw [block]

theorem elifs_succ (fuel : Nat) (context : Context) (branches : List (Node × List Node))
    (c : Cursor) :
    elifs (fuel + 1) context branches c =
      if c.next.is .keyword "elif" then
        (expression fuel loosest >>= fun condition =>
          block fuel context "'elif' condition" >>= fun body =>
          elifs fuel context (branches ++ [(condition, body)])) (c.skip 1)
      else .ok branches c := by
  rw [elifs, accept_bind]
  split <;> rfl

def Cursor.afterNewlines (c : Cursor) : Cursor :=
  { c with rest := c.rest.dropWhile (·.kind == .newline) }

theorem Cursor.afterNewlines_stays {c : Cursor} (h : c.next.kind ≠ .newline) :
    c.afterNewlines = c := by
  have hrest : c.rest.dropWhile (·.kind == .newline) = c.rest := by
    cases hr : c.rest with
    | nil => rfl
    | cons t rest =>
      rw [List.dropWhile_cons_of_neg]
      simpa [Cursor.next, hr] using h
  rw [afterNewlines, hrest]

def Cursor.recording (c : Cursor) (e : ParseError) : Cursor :=
  { c with errors := c.errors ++ [e] }

/-- Past the statement that failed here, with its error. -/
def Cursor.recovered (c : Cursor) (e : ParseError) : Cursor :=
  { c.recording e with rest := dropStatement c.rest }

theorem recovering_apply (rule : Rule Node) (c : Cursor) :
    recovering rule c = match rule c with
      | .ok s c' => .ok (some s) c'
      | .error (.problem e) c' => .ok none (c'.recovered e)
      | .error (.fault f) c' => .error (.fault f) c'
      | .error .starved c' => .error .starved c' := by
  rw [recovering]
  change EStateM.tryCatch (EStateM.map some rule) _ c = _
  unfold EStateM.tryCatch EStateM.map
  cases rule c with
  | ok s c' => rfl
  | error e c' => cases e <;> rfl

/-- Reading a list of statements after the ends of lines. -/
def statementsFrom (fuel : Nat) (context : Context) (topLevel : Bool) (c : Cursor) :
    EStateM.Result Halt Cursor (List Node) :=
  if c.next.kind = .stop then .ok [] c
  else if c.next.kind = .dedent then
    if topLevel then
      statements fuel context topLevel ((c.recording ⟨.strayDedent, c.next.pos⟩).skip 1)
    else .ok [] c
  else (recovering (statement fuel context) >>= fun s => match s with
    | some s => statements fuel context topLevel >>= fun rest => pure (s :: rest)
    | none => statements fuel context topLevel) c

theorem skipNewlines_bind (f : Unit → Rule β) (c : Cursor) :
    (skipNewlines >>= f) c = f () c.afterNewlines := rfl

theorem statements_succ (fuel : Nat) (context : Context) (topLevel : Bool) (c : Cursor) :
    statements (fuel + 1) context topLevel c =
      statementsFrom fuel context topLevel c.afterNewlines := by
  rw [statements, skipNewlines_bind, peek_bind, statementsFrom]
  split
  · rfl
  · split
    · cases topLevel <;> rfl
    · rfl

theorem endOfLine_bind (f : Unit → Rule β) (c : Cursor) :
    (endOfLine >>= f) c =
      if c.next.kind = .newline then f () (c.skip 1) else lacking "end of line" c := by
  rw [bind_apply, endOfLine, discard_apply, expectKind_apply]
  by_cases h : c.next.kind = .newline <;> simp [h, lacking]

theorem expectKind_discard_bind (kind : TokenKind) (what : String) (f : Unit → Rule β)
    (c : Cursor) :
    (discard (expectKind kind what) >>= f) c =
      if c.next.kind = kind then f () (c.skip 1) else lacking what c := by
  rw [bind_apply, discard_apply, expectKind_apply]
  by_cases h : c.next.kind = kind <;> simp [h, lacking]

/-! ### Statements of one line -/

def assigns (t : Token) : Bool :=
  t.kind == .operator && (t.lexeme == "=" || (augmented? t.lexeme).isSome)

def assignment (pos : Position) (target : Node) (t : Token) (value : Node) : Node :=
  match augmented? t.lexeme with
  | some op => .augAssign pos target op value
  | none => .assign pos target value

def simpleTail (fuel : Nat) (pos : Position) (expr : Node) : Rule Node := do
  let t ← peek
  if assigns t then
    if isAssignable expr then
      discard advance
      let value ← expression fuel loosest
      endOfLine
      pure (assignment pos expr t value)
    else fail .notAssignable expr.position
  else
    endOfLine
    pure (.exprStmt pos expr)

theorem simpleStatement_apply (fuel : Nat) (c : Cursor) :
    simpleStatement fuel c = (expression fuel loosest >>= simpleTail fuel c.next.pos) c := by
  rw [simpleStatement, peek_bind, bind_apply, bind_apply]
  cases expression fuel loosest c with
  | error e c' => rfl
  | ok expr c' =>
    dsimp only
    rw [simpleTail, peek_bind, peek_bind]
    change (if assigns c'.next = true then _ else _ : Rule Node) c' = _
    cases assigns c'.next with
    | false => rfl
    | true =>
      cases isAssignable expr with
      | false => rfl
      | true =>
        refine rule_congr ?_ c'
        simp only [if_true, assignment]
        cases augmented? c'.next.lexeme <;> rfl

theorem simpleTail_apply (fuel : Nat) (pos : Position) (expr : Node) (c : Cursor) :
    simpleTail fuel pos expr c =
      if assigns c.next then
        if isAssignable expr then
          (expression fuel loosest >>= fun value => endOfLine >>= fun _ =>
            pure (assignment pos expr c.next value)) (c.skip 1)
        else .error (.problem ⟨.notAssignable, expr.position⟩) c
      else (endOfLine >>= fun _ => pure (.exprStmt pos expr)) c := by
  rw [simpleTail, peek_bind]
  split
  · split <;> rfl
  · rfl

theorem returnStatement_apply (fuel : Nat) (context : Context) (c : Cursor) :
    returnStatement fuel context c =
      if context.inFunction then
        if (c.skip 1).next.kind = .newline then
          (endOfLine >>= fun _ => pure (.returnStmt c.next.pos .hole)) (c.skip 1)
        else (expression fuel loosest >>= fun value => endOfLine >>= fun _ =>
          pure (.returnStmt c.next.pos value)) (c.skip 1)
      else .error (.problem ⟨.outsideFunction, c.next.pos⟩) c := by
  rw [returnStatement, peek_bind]
  cases context.inFunction with
  | false => rfl
  | true =>
    simp only [Bool.not_true, Bool.false_eq_true, if_false, if_true]
    rw [discard_advance_bind, isNextKind_bind]
    by_cases h : (c.skip 1).next.kind = .newline
    · simp only [h]
      rfl
    · rw [if_neg (by simpa using h), if_neg h]

theorem loopStatement_apply (context : Context) (build : Place → Node) (c : Cursor) :
    loopStatement context build c =
      if context.inLoop then (endOfLine >>= fun _ => pure (build c.next.pos)) (c.skip 1)
      else .error (.problem ⟨.outsideLoop c.next.lexeme, c.next.pos⟩) c := by
  rw [loopStatement, peek_bind]
  cases context.inLoop <;> rfl

theorem passStatement_apply (c : Cursor) :
    passStatement c = (endOfLine >>= fun _ => pure (.passStmt c.next.pos)) (c.skip 1) := rfl

def deleteTail (pos : Position) (target : Node) : Rule Node :=
  match target with
  | .index .. => endOfLine >>= fun _ => pure (.delete pos target)
  | _ => fail .deleteNeedsIndex target.position

theorem deleteStatement_apply (fuel : Nat) (c : Cursor) :
    deleteStatement fuel c = (expression fuel loosest >>= deleteTail c.next.pos) (c.skip 1) := by
  rw [deleteStatement, advance_bind, bind_apply, bind_apply]
  cases expression fuel loosest (c.skip 1) with
  | error e c' => rfl
  | ok target c' => cases target <;> rfl

end Offside.Parser
