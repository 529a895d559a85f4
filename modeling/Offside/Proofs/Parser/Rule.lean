import Offside.Parser

/-!
The parser's rules, applied to a cursor. Every rule is unfolded here once: what it does is said
by the next tokens and by the rules it calls, so that later proofs never open a rule.
-/

namespace Offside.Parser

variable {α β : Type}

namespace Cursor

def next (c : Cursor) : Token := c.rest.headD c.stop

def second (c : Cursor) : Token := (c.rest.drop 1).headD c.stop

def skip (c : Cursor) (n : Nat) : Cursor := { c with rest := c.rest.drop n }

@[simp] theorem skip_rest (c : Cursor) (n : Nat) : (c.skip n).rest = c.rest.drop n := rfl

theorem skip_skip (c : Cursor) (m n : Nat) : (c.skip m).skip n = c.skip (m + n) := by
  simp [skip, List.drop_drop]

end Cursor

theorem bind_apply (x : Rule α) (f : α → Rule β) (c : Cursor) :
    (x >>= f) c = match x c with
      | .ok a c' => f a c'
      | .error e c' => .error e c' := by
  change EStateM.bind x f c = _
  unfold EStateM.bind
  cases x c <;> rfl

theorem bind_ok {x : Rule α} {f : α → Rule β} {c c' : Cursor} {a : α} (h : x c = .ok a c') :
    (x >>= f) c = f a c' := by
  rw [bind_apply, h]

theorem bind_ok_iff {x : Rule α} {f : α → Rule β} {c c' : Cursor} {b : β} :
    (x >>= f) c = .ok b c' ↔ ∃ a c₁, x c = .ok a c₁ ∧ f a c₁ = .ok b c' := by
  rw [bind_apply]
  cases x c with
  | ok a c₁ =>
    refine ⟨fun h => ⟨a, c₁, rfl, h⟩, ?_⟩
    rintro ⟨_, _, h, hf⟩
    cases h
    exact hf
  | error e c₁ => simp

theorem map_ok_iff {x : Rule α} {f : α → β} {c c' : Cursor} {b : β} :
    (x >>= fun a => pure (f a)) c = .ok b c' ↔ ∃ a, x c = .ok a c' ∧ f a = b := by
  rw [bind_ok_iff]
  constructor
  · rintro ⟨a, c₁, hx, hb⟩
    cases hb
    exact ⟨a, hx, rfl⟩
  · rintro ⟨a, hx, rfl⟩
    exact ⟨a, c', hx, rfl⟩

/-! ### Looking at the next tokens -/

def lacking (what : String) (c : Cursor) : EStateM.Result Halt Cursor α :=
  .error (.problem ⟨.expected what c.next, c.next.pos⟩) c

theorem discard_apply (x : Rule α) (c : Cursor) :
    discard x c = match x c with
      | .ok _ c' => .ok () c'
      | .error e c' => .error e c' := by
  change EStateM.map _ x c = _
  unfold EStateM.map
  cases x c <;> rfl

theorem peek_bind (f : Token → Rule β) (c : Cursor) : (peek >>= f) c = f c.next c := rfl

theorem peekSecond_bind (f : Token → Rule β) (c : Cursor) :
    (peekSecond >>= f) c = f c.second c := rfl

theorem advance_bind (f : Token → Rule β) (c : Cursor) :
    (advance >>= f) c = f c.next (c.skip 1) := rfl

theorem discard_advance_bind (f : Unit → Rule β) (c : Cursor) :
    (discard advance >>= f) c = f () (c.skip 1) := rfl

theorem isNextKind_bind (kind : TokenKind) (f : Bool → Rule β) (c : Cursor) :
    (isNextKind kind >>= f) c = f (c.next.kind == kind) c := rfl

theorem isNext_bind (kind : TokenKind) (lexeme : String) (f : Bool → Rule β) (c : Cursor) :
    (isNext kind lexeme >>= f) c = f (c.next.is kind lexeme) c := rfl

theorem accept_bind (kind : TokenKind) (lexeme : String) (f : Bool → Rule β) (c : Cursor) :
    (accept kind lexeme >>= f) c =
      if c.next.is kind lexeme then f true (c.skip 1) else f false c := by
  have h : accept kind lexeme c =
      if c.next.is kind lexeme then .ok true (c.skip 1) else .ok false c := by
    rw [accept, isNext_bind]
    split <;> rfl
  rw [bind_apply, h]
  by_cases hn : c.next.is kind lexeme = true <;> simp [hn]

theorem expect_apply (kind : TokenKind) (lexeme what : String) (c : Cursor) :
    expect kind lexeme what c =
      if c.next.is kind lexeme then .ok c.next (c.skip 1) else lacking what c := by
  rw [expect, isNext_bind]
  split <;> rfl

theorem expect_bind (kind : TokenKind) (lexeme what : String) (f : Unit → Rule β) (c : Cursor) :
    (discard (expect kind lexeme what) >>= f) c =
      if c.next.is kind lexeme then f () (c.skip 1) else lacking what c := by
  rw [bind_apply, discard_apply, expect_apply]
  by_cases hn : c.next.is kind lexeme = true <;> simp [hn, lacking]

theorem expectKind_apply (kind : TokenKind) (what : String) (c : Cursor) :
    expectKind kind what c =
      if c.next.kind = kind then .ok c.next (c.skip 1) else lacking what c := by
  rw [expectKind, isNextKind_bind]
  by_cases h : c.next.kind = kind <;> simp [h] <;> rfl

theorem expectKind_bind (kind : TokenKind) (what : String) (f : Token → Rule β) (c : Cursor) :
    (expectKind kind what >>= f) c =
      if c.next.kind = kind then f c.next (c.skip 1) else lacking what c := by
  rw [bind_apply, expectKind_apply]
  by_cases h : c.next.kind = kind <;> simp [h, lacking]

theorem advanceBy_bind (n : Nat) (f : Unit → Rule β) (c : Cursor) :
    (advanceBy n >>= f) c = f () (c.skip n) := by
  induction n generalizing c with
  | zero => rfl
  | succ n ih =>
    change (advanceBy n >>= f) (c.skip 1) = _
    rw [ih, Cursor.skip_skip, Nat.add_comm]

/-! ### Expressions -/

theorem parameter_bind (what : String) (params : List String) (f : String → Rule β)
    (c : Cursor) :
    (parameter what params >>= f) c =
      if c.next.kind = .identifier then
        if params.contains c.next.lexeme then
          .error (.problem ⟨.duplicateParameter c.next.lexeme, c.next.pos⟩) (c.skip 1)
        else f c.next.lexeme (c.skip 1)
      else lacking what c := by
  rw [parameter, bind_assoc, expectKind_bind]
  split
  · cases h : params.contains c.next.lexeme <;> rfl
  · rfl

theorem parameters_succ (close what : String) (fuel : Nat) (params : List String) (c : Cursor) :
    parameters close what (fuel + 1) params c =
      if c.next.is .delimiter close then .ok params c
      else if c.next.kind = .identifier then
        if params.contains c.next.lexeme then
          .error (.problem ⟨.duplicateParameter c.next.lexeme, c.next.pos⟩) (c.skip 1)
        else if (c.skip 1).next.is .delimiter "," then
          parameters close what fuel (params ++ [c.next.lexeme]) (c.skip 2)
        else .ok (params ++ [c.next.lexeme]) (c.skip 1)
      else lacking what c := by
  rw [parameters, isNext_bind]
  split
  · rfl
  · rw [parameter_bind]
    split
    · split
      · rfl
      · rw [accept_bind, Cursor.skip_skip]
        split <;> rfl
    · rfl

theorem expression_succ (fuel level : Nat) (c : Cursor) :
    expression (fuel + 1) level c = (operand fuel level >>= climb fuel level) c := by
  rw [expression]

theorem climb_succ (fuel level : Nat) (left : Node) (c : Cursor) :
    climb (fuel + 1) level left c =
      match binaryOperator? c.next c.second with
      | none => .ok left c
      | some (op, opLevel, width) =>
        if opLevel < level then .ok left c
        else (expression fuel (opLevel + 1) >>= fun right =>
          climb fuel level (.binaryOp c.next.pos op left right)) (c.skip width) := by
  rw [climb, peek_bind, peekSecond_bind]
  cases binaryOperator? c.next c.second with
  | none => rfl
  | some o =>
    obtain ⟨op, opLevel, width⟩ := o
    dsimp only
    split
    · rfl
    · rw [advanceBy_bind]

theorem operand_succ (fuel level : Nat) (c : Cursor) :
    operand (fuel + 1) level c =
      if c.next.is .keyword "not" then
        if notLevel < level then .error (.problem ⟨.needsParentheses "not", c.next.pos⟩) c
        else (expression fuel notLevel >>= fun e => pure (.unaryOp c.next.pos "not" e)) (c.skip 1)
      else if c.next.is .operator "-" then
        (expression fuel minusLevel >>= fun e => pure (.unaryOp c.next.pos "-" e)) (c.skip 1)
      else if c.next.is .keyword "lambda" then
        if loosest < level then .error (.problem ⟨.needsParentheses "lambda", c.next.pos⟩) c
        else (parameters ":" "a parameter name or ':'" fuel [] >>= fun params => do
          discard (expect .delimiter ":" "':' after lambda parameters")
          let body ← expression fuel loosest
          pure (.lambda c.next.pos (params.map Json.string) body)) (c.skip 1)
      else (primary fuel >>= postfixes fuel) c := by
  rw [operand, peek_bind]
  split
  · split <;> rfl
  · split
    · rfl
    · split
      · split <;> rfl
      · rfl

theorem postfixes_succ (fuel : Nat) (node : Node) (c : Cursor) :
    postfixes (fuel + 1) node c =
      if c.next.is .delimiter "(" then
        (sequence fuel ")" "',' or ')' after an argument" [] >>= fun args =>
          postfixes fuel (.call node.pos node args)) (c.skip 1)
      else if c.next.is .delimiter "[" then
        (expression fuel loosest >>= fun index => do
          discard (expect .delimiter "]" "']' after index")
          postfixes fuel (.index node.pos node index)) (c.skip 1)
      else if c.next.is .delimiter "." then
        (expectKind .identifier "an attribute name after '.'" >>= fun name =>
          postfixes fuel (.member node.pos node name.lexeme)) (c.skip 1)
      else .ok node c := by
  rw [postfixes, accept_bind]
  split
  · rfl
  · rw [if_neg Bool.false_ne_true, accept_bind]
    split
    · rfl
    · rw [if_neg Bool.false_ne_true, accept_bind]
      split <;> rfl

/-- What follows an item: a comma and more of them, or the closing delimiter. -/
def afterItem {α : Type} (close what : String) (more : Rule α) (done : α) : Rule α := do
  if ← accept .delimiter "," then more
  else
    discard (expect .delimiter close what)
    return done

theorem afterItem_apply (close what : String) (more : Rule α) (done : α) (c : Cursor) :
    afterItem close what more done c =
      if c.next.is .delimiter "," then more (c.skip 1)
      else if c.next.is .delimiter close then .ok done (c.skip 1)
      else lacking what c := by
  rw [afterItem, accept_bind]
  split
  · rfl
  · rw [if_neg Bool.false_ne_true, expect_bind]
    rfl

theorem sequence_succ (fuel : Nat) (close what : String) (items : List Node) (c : Cursor) :
    sequence (fuel + 1) close what items c =
      if c.next.is .delimiter close then .ok items (c.skip 1)
      else (expression fuel loosest >>= fun item =>
        afterItem close what (sequence fuel close what (items ++ [item])) (items ++ [item])) c := by
  rw [sequence, accept_bind]
  split <;> rfl

theorem entries_succ (fuel : Nat) (read : List (Node × Node)) (c : Cursor) :
    entries (fuel + 1) read c =
      if c.next.is .delimiter "\x7d" then .ok read (c.skip 1)
      else (expression fuel loosest >>= fun key => do
        discard (expect .delimiter ":" "':' after a mapping key")
        let value ← expression fuel loosest
        afterItem "\x7d" "',' or '\x7d' after a mapping entry"
          (entries fuel (read ++ [(key, value)])) (read ++ [(key, value)])) c := by
  rw [entries, accept_bind]
  split <;> rfl

theorem primary_succ (fuel : Nat) (c : Cursor) :
    primary (fuel + 1) c =
      match atom? c.next with
      | some (.ok node) => .ok node (c.skip 1)
      | some (.error f) => .error (.fault f) (c.skip 1)
      | none =>
        if c.next.is .delimiter "(" then
          (expression fuel loosest >>= fun inner => do
            discard (expect .delimiter ")" "')' to close '('")
            pure inner) (c.skip 1)
        else if c.next.is .delimiter "[" then
          (sequence fuel "]" "',' or ']' after a list element" [] >>= fun items =>
            pure (.listLiteral c.next.pos items)) (c.skip 1)
        else if c.next.is .delimiter "\x7b" then
          (entries fuel [] >>= fun read => pure (.mapLiteral c.next.pos read)) (c.skip 1)
        else lacking "an expression" c := by
  rw [primary, peek_bind]
  rcases atom? c.next with _ | _ | _
  · dsimp only
    split
    · rfl
    · split
      · rfl
      · split <;> rfl
  · rfl
  · rfl

end Offside.Parser
