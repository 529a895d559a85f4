import Offside.Proofs.Lowered
import Offside.Proofs.Parser.Placing

/-!
Parsing further down. No rule looks at the places of tokens: from tokens some lines lower it reads
the same trees, with their places as much lower, and fails at the same token with the same error
there.
-/

namespace Offside.Parser

variable {α β : Type} {k : Nat}

def Cursor.lower (k : Nat) (c : Cursor) : Cursor :=
  ⟨c.rest.map (Token.lower k), c.stop.lower k, c.errors.map (ParseError.lower k)⟩

def Halt.lower (k : Nat) : Halt → Halt
  | .problem e => .problem (e.lower k)
  | .fault f => .fault f
  | .starved => .starved

/-- An outcome further down; `g` moves what the rule gives. -/
def lowered (g : α → α) (k : Nat) : Outcome α → Outcome α
  | .ok a c => .ok (g a) (c.lower k)
  | .error e c => .error (e.lower k) (c.lower k)

namespace Cursor

variable (c : Cursor)

@[simp] theorem next_lower : (c.lower k).next = c.next.lower k := by
  unfold next lower
  cases c.rest <;> rfl

theorem skip_lower (n : Nat) : (c.lower k).skip n = (c.skip n).lower k := by
  simp [skip, lower, List.map_drop]

@[simp] theorem second_lower : (c.lower k).second = c.second.lower k := by
  have h := next_lower (k := k) (c.skip 1)
  rwa [← skip_lower] at h

theorem recording_lower (e : ParseError) :
    (c.lower k).recording (e.lower k) = (c.recording e).lower k := by
  simp [recording, lower]

theorem afterNewlines_lower : (c.lower k).afterNewlines = c.afterNewlines.lower k := by
  unfold afterNewlines lower
  rw [List.dropWhile_map]
  rfl

end Cursor

/-! ### Passing over a statement -/

theorem dropBlock_lower (depth : Nat) (ts : List Token) :
    dropBlock depth (ts.map (Token.lower k)) = (dropBlock depth ts).map (Token.lower k) := by
  induction ts generalizing depth with
  | nil => rfl
  | cons t ts ih =>
    simp only [List.map_cons, dropBlock, Token.lower_kind]
    split
    · rfl
    · exact ih _
    · split
      · rfl
      · exact ih _
    · exact ih _

theorem dropLine_lower (ts : List Token) :
    dropLine (ts.map (Token.lower k)) = (dropLine ts).map (Token.lower k) := by
  induction ts with
  | nil => rfl
  | cons t ts ih =>
    simp only [List.map_cons, dropLine, Token.lower_kind]
    split
    · rfl
    · rfl
    · cases ts with
      | nil => rfl
      | cons u ts =>
        simp only [List.map_cons, Token.lower_kind]
        split
        · exact dropBlock_lower 0 (u :: ts)
        · rfl
    · exact ih

theorem dropStatement_lower (ts : List Token) :
    dropStatement (ts.map (Token.lower k)) = (dropStatement ts).map (Token.lower k) := by
  cases ts with
  | nil => rfl
  | cons t ts =>
    simp only [List.map_cons, dropStatement, Token.lower_kind]
    split
    · exact dropBlock_lower 0 (t :: ts)
    · exact dropLine_lower (t :: ts)

theorem Cursor.recovered_lower (c : Cursor) (e : ParseError) :
    (c.lower k).recovered (e.lower k) = (c.recovered e).lower k := by
  unfold Cursor.recovered
  rw [Cursor.recording_lower]
  unfold Cursor.lower
  rw [dropStatement_lower]

/-! ### Outcomes -/

variable {g : α → α} {h : β → β} {c : Cursor}

theorem lower_bind {x y : Rule β} {f f' : β → Rule α} (hx : y (c.lower k) = lowered h k (x c))
    (hf : ∀ b c', x c = .ok b c' → f' (h b) (c'.lower k) = lowered g k (f b c')) :
    (y >>= f') (c.lower k) = lowered g k ((x >>= f) c) := by
  rw [bind_apply, bind_apply, hx]
  cases hr : x c with
  | ok b c' => exact hf b c' hr
  | error e c' => rfl

theorem lower_ite {p : Prop} [Decidable p] {r r' s s' : Outcome α} (hr : r' = lowered g k r)
    (hs : s' = lowered g k s) : (if p then r' else s') = lowered g k (if p then r else s) := by
  rw [hr, hs]
  split <;> rfl

theorem lower_either {p : Prop} [Decidable p] {x x' y y' : Rule α}
    (hx : x' (c.lower k) = lowered g k (x c)) (hy : y' (c.lower k) = lowered g k (y c)) :
    (if p then x' else y') (c.lower k) = lowered g k ((if p then x else y) c) := by
  split
  · exact hx
  · exact hy

theorem lower_lacking (what : String) :
    (lacking what (c.lower k) : Outcome α) = lowered g k (lacking what c) := by
  unfold lacking
  rw [Cursor.next_lower]
  rfl

theorem lower_expect {kind : TokenKind} {lexeme what : String} {f f' : Unit → Rule α}
    (hf : ∀ c : Cursor, f' () (c.lower k) = lowered g k (f () c)) :
    (discard (expect kind lexeme what) >>= f') (c.lower k) =
      lowered g k ((discard (expect kind lexeme what) >>= f) c) := by
  rw [expect_bind, expect_bind, Cursor.next_lower, Token.lower_is, Cursor.skip_lower]
  exact lower_ite (hf _) (lower_lacking what)

theorem lower_expectKind {kind : TokenKind} {what : String} {f f' : Token → Rule α}
    (hf : ∀ t (c : Cursor), f' (t.lower k) (c.lower k) = lowered g k (f t c)) :
    (expectKind kind what >>= f') (c.lower k) = lowered g k ((expectKind kind what >>= f) c) := by
  rw [expectKind_bind, expectKind_bind, Cursor.next_lower, Token.lower_kind, Cursor.skip_lower]
  exact lower_ite (hf _ _) (lower_lacking what)

theorem lower_expectToken {kind : TokenKind} {what : String} {f f' : Unit → Rule α}
    (hf : ∀ c : Cursor, f' () (c.lower k) = lowered g k (f () c)) :
    (discard (expectKind kind what) >>= f') (c.lower k) =
      lowered g k ((discard (expectKind kind what) >>= f) c) := by
  rw [expectKind_discard_bind, expectKind_discard_bind, Cursor.next_lower, Token.lower_kind,
    Cursor.skip_lower]
  exact lower_ite (hf _) (lower_lacking what)

theorem lower_endOfLine {a b : α} (h : b = g a) :
    (endOfLine >>= fun _ => pure b) (c.lower k) =
      lowered g k ((endOfLine >>= fun _ => pure a) c) := by
  rw [endOfLine_bind, endOfLine_bind, Cursor.next_lower, Token.lower_kind, Cursor.skip_lower, h]
  exact lower_ite rfl (lower_lacking _)

theorem lower_advance {f f' : Unit → Rule α}
    (hf : f' () ((c.skip 1).lower k) = lowered g k (f () (c.skip 1))) :
    (discard advance >>= f') (c.lower k) = lowered g k ((discard advance >>= f) c) := by
  rw [discard_advance_bind, discard_advance_bind, Cursor.skip_lower]
  exact hf

theorem lower_afterItem {close what : String} {more more' : Rule α} {done : α}
    (hmore : ∀ c : Cursor, more' (c.lower k) = lowered g k (more c)) :
    afterItem close what more' (g done) (c.lower k) =
      lowered g k (afterItem close what more done c) := by
  rw [afterItem_apply, afterItem_apply, Cursor.next_lower, Token.lower_is, Token.lower_is,
    Cursor.skip_lower]
  exact lower_ite (hmore _) (lower_ite rfl (lower_lacking what))

/-! ### Expressions -/

theorem parameters_lower (close what : String) (fuel : Nat) (ps : List String) (c : Cursor) :
    parameters close what fuel ps (c.lower k) = lowered id k (parameters close what fuel ps c) := by
  induction fuel generalizing ps c with
  | zero => rfl
  | succ fuel ih =>
    rw [parameters_succ, parameters_succ]
    simp only [Cursor.next_lower, Token.lower_is, Token.lower_kind, Token.lower_lexeme,
      Cursor.skip_lower]
    refine lower_ite rfl (lower_ite (lower_ite rfl ?_) (lower_lacking what))
    exact lower_ite (ih _ _) rfl

theorem atom_lower (t : Token) :
    atom? (t.lower k) = (atom? t).map (Except.map (Node.lower k)) := by
  obtain ⟨kind, lexeme, pos⟩ := t
  unfold atom? Token.lower
  dsimp only
  split
  · cases Number.readInteger? lexeme.toList <;> rfl
  · cases Number.readFloat? lexeme.toList <;> rfl
  · rfl
  · rfl
  · split_ifs <;> rfl
  · rfl

/-- The rules for expressions, some lines lower. -/
structure Lowering (k fuel : Nat) : Prop where
  expression : ∀ level c, expression fuel level (c.lower k) =
    lowered (Node.lower k) k (expression fuel level c)
  climb : ∀ level left c, climb fuel level (left.lower k) (c.lower k) =
    lowered (Node.lower k) k (climb fuel level left c)
  operand : ∀ level c, operand fuel level (c.lower k) =
    lowered (Node.lower k) k (operand fuel level c)
  postfixes : ∀ node c, postfixes fuel (node.lower k) (c.lower k) =
    lowered (Node.lower k) k (postfixes fuel node c)
  sequence : ∀ close what items c,
    sequence fuel close what (Node.movedList (Place.lower k) items) (c.lower k) =
      lowered (Node.movedList (Place.lower k)) k (sequence fuel close what items c)
  entries : ∀ read c, entries fuel (Node.movedPairs (Place.lower k) read) (c.lower k) =
    lowered (Node.movedPairs (Place.lower k)) k (entries fuel read c)
  primary : ∀ c, primary fuel (c.lower k) = lowered (Node.lower k) k (primary fuel c)

variable {fuel : Nat}

theorem climb_lower (ih : Lowering k fuel) (level : Nat) (left : Node) (c : Cursor) :
    climb (fuel + 1) level (left.lower k) (c.lower k) =
      lowered (Node.lower k) k (climb (fuel + 1) level left c) := by
  have hoperator : binaryOperator? (c.next.lower k) (c.second.lower k) =
      binaryOperator? c.next c.second := rfl
  rw [climb_succ, climb_succ, Cursor.next_lower, Cursor.second_lower, hoperator]
  cases binaryOperator? c.next c.second with
  | none => rfl
  | some o =>
    obtain ⟨op, opLevel, width⟩ := o
    dsimp only
    rw [Cursor.skip_lower]
    refine lower_ite rfl (lower_bind (ih.expression _ _) ?_)
    intro right c' _
    exact ih.climb level (.binaryOp c.next.pos op left right) c'

theorem operand_lower (ih : Lowering k fuel) (level : Nat) (c : Cursor) :
    operand (fuel + 1) level (c.lower k) =
      lowered (Node.lower k) k (operand (fuel + 1) level c) := by
  rw [operand_succ, operand_succ]
  simp only [Cursor.next_lower, Token.lower_is, Cursor.skip_lower]
  refine lower_ite (lower_ite rfl ?_) (lower_ite ?_ (lower_ite (lower_ite rfl ?_) ?_))
  · exact lower_bind (ih.expression _ _) fun _ _ _ => rfl
  · exact lower_bind (ih.expression _ _) fun _ _ _ => rfl
  · refine lower_bind (parameters_lower _ _ _ _ _) fun ps c₁ _ => ?_
    refine lower_expect fun c₂ => ?_
    exact lower_bind (ih.expression _ _) fun _ _ _ => rfl
  · exact lower_bind (ih.primary _) fun _ _ _ => ih.postfixes _ _

theorem postfixes_lower (ih : Lowering k fuel) (node : Node) (c : Cursor) :
    postfixes (fuel + 1) (node.lower k) (c.lower k) =
      lowered (Node.lower k) k (postfixes (fuel + 1) node c) := by
  rw [postfixes_succ, postfixes_succ]
  simp only [Cursor.next_lower, Token.lower_is, Cursor.skip_lower]
  refine lower_ite ?_ (lower_ite ?_ (lower_ite ?_ rfl))
  · refine lower_bind (ih.sequence _ _ [] _) fun args c₁ _ => ?_
    rw [Node.pos_lower]
    exact ih.postfixes (.call node.pos node args) c₁
  · refine lower_bind (ih.expression _ _) fun index c₁ _ => lower_expect fun c₂ => ?_
    rw [Node.pos_lower]
    exact ih.postfixes (.index node.pos node index) c₂
  · refine lower_expectKind fun name c₁ => ?_
    rw [Node.pos_lower]
    exact ih.postfixes (.member node.pos node name.lexeme) c₁

theorem sequence_lower (ih : Lowering k fuel) (close what : String) (items : List Node)
    (c : Cursor) :
    sequence (fuel + 1) close what (Node.movedList (Place.lower k) items) (c.lower k) =
      lowered (Node.movedList (Place.lower k)) k (sequence (fuel + 1) close what items c) := by
  rw [sequence_succ, sequence_succ]
  simp only [Cursor.next_lower, Token.lower_is, Cursor.skip_lower]
  refine lower_ite rfl (lower_bind (ih.expression _ _) fun item c₁ _ => ?_)
  unfold Node.lower
  rw [← Node.movedList_snoc]
  exact lower_afterItem fun c₂ => ih.sequence _ _ _ c₂

theorem entries_lower (ih : Lowering k fuel) (read : List (Node × Node)) (c : Cursor) :
    entries (fuel + 1) (Node.movedPairs (Place.lower k) read) (c.lower k) =
      lowered (Node.movedPairs (Place.lower k)) k (entries (fuel + 1) read c) := by
  rw [entries_succ, entries_succ]
  simp only [Cursor.next_lower, Token.lower_is, Cursor.skip_lower]
  refine lower_ite rfl (lower_bind (ih.expression _ _) fun key c₁ _ => lower_expect fun c₂ => ?_)
  refine lower_bind (ih.expression _ _) fun value c₃ _ => ?_
  unfold Node.lower
  rw [← Node.movedPairs_snoc]
  exact lower_afterItem fun c₄ => ih.entries _ c₄

theorem primary_lower (ih : Lowering k fuel) (c : Cursor) :
    primary (fuel + 1) (c.lower k) = lowered (Node.lower k) k (primary (fuel + 1) c) := by
  rw [primary_succ, primary_succ, Cursor.next_lower, atom_lower]
  simp only [Token.lower_is, Cursor.skip_lower]
  rcases atom? c.next with _ | _ | _
  · refine lower_ite ?_ (lower_ite ?_ (lower_ite ?_ (lower_lacking _)))
    · refine lower_bind (ih.expression _ _) fun _ _ _ => lower_expect fun _ => rfl
    · exact lower_bind (ih.sequence _ _ [] _) fun _ _ _ => rfl
    · exact lower_bind (ih.entries [] _) fun _ _ _ => rfl
  · rfl
  · rfl

theorem rules_lower (k fuel : Nat) : Lowering k fuel := by
  induction fuel with
  | zero => constructor <;> intros <;> rfl
  | succ fuel ih =>
    refine ⟨?_, climb_lower ih, operand_lower ih, postfixes_lower ih, sequence_lower ih,
      entries_lower ih, primary_lower ih⟩
    intro level c
    rw [expression_succ, expression_succ]
    exact lower_bind (ih.operand _ _) fun _ _ _ => ih.climb _ _ _

theorem expression_lower (fuel level : Nat) (c : Cursor) :
    expression fuel level (c.lower k) = lowered (Node.lower k) k (expression fuel level c) :=
  (rules_lower k fuel).expression level c

/-- What is read stands at a position, which is as much lower. -/
theorem position_lower {level : Nat} {c' : Cursor} {e : Node}
    (h : expression fuel level c = .ok e c') :
    (e.lower k).position = e.position.lower k := by
  have hplaces := expression_places (T := Set.range Place.ofPosition) (c := c) fuel level
    ⟨⟨_, rfl⟩, fun t _ => ⟨_, rfl⟩⟩
  rw [h] at hplaces
  obtain ⟨p, hp⟩ := hplaces.1.pos
  rw [Node.position, Node.pos_lower, Node.position, ← hp]
  rfl

/-! ### Statements -/

theorem assignment_lower (p : Position) (target : Node) (t : Token) (value : Node) :
    assignment (p.lower k) (target.lower k) (t.lower k) (value.lower k) =
      (assignment p target t value).lower k := by
  unfold assignment
  rw [Token.lower_lexeme]
  cases augmented? t.lexeme <;> rfl

theorem isAssignable_lower (e : Node) : isAssignable (e.lower k) = isAssignable e := by
  cases e <;> rfl

theorem simpleStatement_lower (fuel : Nat) (c : Cursor) :
    simpleStatement fuel (c.lower k) = lowered (Node.lower k) k (simpleStatement fuel c) := by
  rw [simpleStatement_apply, simpleStatement_apply, Cursor.next_lower]
  refine lower_bind (expression_lower _ _ _) fun expr c₁ hexpr => ?_
  rw [simpleTail_apply, simpleTail_apply, Cursor.next_lower, isAssignable_lower,
    Cursor.skip_lower, position_lower hexpr]
  refine lower_ite (lower_ite ?_ rfl) (lower_endOfLine rfl)
  refine lower_bind (expression_lower _ _ _) fun value c₂ _ => ?_
  exact lower_endOfLine (assignment_lower _ _ _ _)

theorem returnStatement_lower (fuel : Nat) (context : Context) (c : Cursor) :
    returnStatement fuel context (c.lower k) =
      lowered (Node.lower k) k (returnStatement fuel context c) := by
  rw [returnStatement_apply, returnStatement_apply]
  simp only [Cursor.skip_lower, Cursor.next_lower, Token.lower_kind]
  refine lower_ite (lower_ite (lower_endOfLine rfl) ?_) rfl
  exact lower_bind (expression_lower _ _ _) fun _ _ _ => lower_endOfLine rfl

theorem loopStatement_lower {build : Place → Node}
    (hbuild : ∀ p : Place, build (p.lower k) = (build p).lower k) (context : Context) (c : Cursor) :
    loopStatement context build (c.lower k) =
      lowered (Node.lower k) k (loopStatement context build c) := by
  rw [loopStatement_apply, loopStatement_apply, Cursor.skip_lower, Cursor.next_lower]
  exact lower_ite (lower_endOfLine (hbuild c.next.pos)) rfl

theorem passStatement_lower (c : Cursor) :
    passStatement (c.lower k) = lowered (Node.lower k) k (passStatement c) := by
  rw [passStatement_apply, passStatement_apply, Cursor.skip_lower, Cursor.next_lower]
  exact lower_endOfLine rfl

theorem deleteStatement_lower (fuel : Nat) (c : Cursor) :
    deleteStatement fuel (c.lower k) = lowered (Node.lower k) k (deleteStatement fuel c) := by
  rw [deleteStatement_apply, deleteStatement_apply, Cursor.skip_lower, Cursor.next_lower]
  refine lower_bind (expression_lower _ _ _) fun target c₁ htarget => ?_
  have hposition : deleteTail (c.next.pos.lower k) (target.lower k) (c₁.lower k) =
      lowered (Node.lower k) k (deleteTail c.next.pos target c₁) := by
    have hfail : (fail .deleteNeedsIndex (target.lower k).position : Rule Node) (c₁.lower k) =
        lowered (Node.lower k) k (fail .deleteNeedsIndex target.position c₁) := by
      rw [position_lower htarget]
      rfl
    cases target with
    | index p t i => exact lower_endOfLine rfl
    | _ => exact hfail
  exact hposition

/-- The rules for statements, some lines lower. -/
structure LoweringStatements (k fuel : Nat) : Prop where
  statements : ∀ context topLevel c, statements fuel context topLevel (c.lower k) =
    lowered (Node.movedList (Place.lower k)) k (statements fuel context topLevel c)
  statement : ∀ context c, statement fuel context (c.lower k) =
    lowered (Node.lower k) k (statement fuel context c)
  block : ∀ context header c, block fuel context header (c.lower k) =
    lowered (Node.movedList (Place.lower k)) k (block fuel context header c)
  elifs : ∀ context branches c,
    elifs fuel context (Node.movedBranches (Place.lower k) branches) (c.lower k) =
      lowered (Node.movedBranches (Place.lower k)) k (elifs fuel context branches c)

theorem ifTail_lower (ih : LoweringStatements k fuel) (context : Context) (p : Position)
    (c : Cursor) : ifTail fuel context (p.lower k) (c.lower k) =
      lowered (Node.lower k) k (ifTail fuel context p c) := by
  unfold ifTail
  refine lower_bind (expression_lower _ _ _) fun condition c₁ _ => ?_
  refine lower_bind (ih.block _ _ _) fun body c₂ _ => ?_
  refine lower_bind (ih.elifs _ [(condition, body)] _) fun branches c₃ _ => ?_
  rw [accept_bind, accept_bind, Cursor.next_lower, Token.lower_is, Cursor.skip_lower]
  refine lower_ite ?_ rfl
  exact lower_bind (ih.block _ _ _) fun _ _ _ => rfl

theorem whileTail_lower (ih : LoweringStatements k fuel) (context : Context) (p : Position)
    (c : Cursor) : whileTail fuel context (p.lower k) (c.lower k) =
      lowered (Node.lower k) k (whileTail fuel context p c) := by
  unfold whileTail
  refine lower_bind (expression_lower _ _ _) fun condition c₁ _ => ?_
  exact lower_bind (ih.block _ _ _) fun _ _ _ => rfl

theorem forTail_lower (ih : LoweringStatements k fuel) (context : Context) (p : Position)
    (c : Cursor) : forTail fuel context (p.lower k) (c.lower k) =
      lowered (Node.lower k) k (forTail fuel context p c) := by
  unfold forTail
  refine lower_expectKind fun name c₁ => lower_expect fun c₂ => ?_
  refine lower_bind (expression_lower _ _ _) fun iterable c₃ _ => ?_
  exact lower_bind (ih.block _ _ _) fun _ _ _ => rfl

theorem defTail_lower (ih : LoweringStatements k fuel) (p : Position) (c : Cursor) :
    defTail fuel (p.lower k) (c.lower k) = lowered (Node.lower k) k (defTail fuel p c) := by
  unfold defTail
  refine lower_expectKind fun name c₁ => lower_expect fun c₂ => ?_
  refine lower_bind (parameters_lower _ _ _ _ _) fun params c₃ _ => lower_expect fun c₄ => ?_
  exact lower_bind (ih.block _ _ _) fun _ _ _ => rfl

theorem statement_lower (ih : LoweringStatements k fuel) (context : Context) (c : Cursor) :
    statement (fuel + 1) context (c.lower k) =
      lowered (Node.lower k) k (statement (fuel + 1) context c) := by
  rw [statement_succ, statement_succ, Cursor.next_lower]
  simp only [Token.lower_kind]
  refine lower_ite ?_ (lower_ite rfl (simpleStatement_lower _ _))
  unfold wordRule
  simp only [Token.lower_lexeme]
  refine lower_either (lower_advance (ifTail_lower ih _ _ _)) ?_
  refine lower_either (lower_advance (whileTail_lower ih _ _ _)) ?_
  refine lower_either (lower_advance (forTail_lower ih _ _ _)) ?_
  refine lower_either (lower_advance (defTail_lower ih _ _)) ?_
  refine lower_either (returnStatement_lower _ _ _) ?_
  refine lower_either (loopStatement_lower (fun _ => rfl) _ _) ?_
  refine lower_either (loopStatement_lower (fun _ => rfl) _ _) ?_
  refine lower_either (passStatement_lower _) (lower_either (deleteStatement_lower _ _) ?_)
  exact simpleStatement_lower _ _

theorem recovering_lower {rule : Rule Node}
    (h : rule (c.lower k) = lowered (Node.lower k) k (rule c)) :
    recovering rule (c.lower k) = lowered (Option.map (Node.lower k)) k (recovering rule c) := by
  rw [recovering_apply, recovering_apply, h]
  cases rule c with
  | ok s c' => rfl
  | error e c' =>
    cases e with
    | problem e => exact congrArg (EStateM.Result.ok none) (Cursor.recovered_lower c' e)
    | fault f => rfl
    | starved => rfl

theorem statements_lower (ih : LoweringStatements k fuel) (context : Context) (topLevel : Bool)
    (c : Cursor) : statements (fuel + 1) context topLevel (c.lower k) =
      lowered (Node.movedList (Place.lower k)) k (statements (fuel + 1) context topLevel c) := by
  rw [statements_succ, statements_succ, Cursor.afterNewlines_lower]
  unfold statementsFrom
  simp only [Cursor.next_lower, Token.lower_kind]
  refine lower_ite rfl (lower_ite (lower_ite ?_ rfl) ?_)
  · have herror : ParseError.lower k ⟨.strayDedent, c.afterNewlines.next.pos⟩ =
        ⟨.strayDedent, (c.afterNewlines.next.lower k).pos⟩ := rfl
    rw [← herror, Cursor.recording_lower, Cursor.skip_lower]
    exact ih.statements _ _ _
  · refine lower_bind (recovering_lower (ih.statement _ _)) fun s c₁ _ => ?_
    cases s with
    | none => exact ih.statements _ _ _
    | some s => exact lower_bind (ih.statements _ _ _) fun _ _ _ => rfl

theorem block_lower (ih : LoweringStatements k fuel) (context : Context) (header : String)
    (c : Cursor) : block (fuel + 1) context header (c.lower k) =
      lowered (Node.movedList (Place.lower k)) k (block (fuel + 1) context header c) := by
  rw [block_succ, block_succ]
  refine lower_expect fun c₁ => lower_expectToken fun c₂ => lower_expectToken fun c₃ => ?_
  refine lower_bind (ih.statements _ _ _) fun body c₄ _ => ?_
  exact lower_expectToken fun _ => rfl

theorem elifs_lower (ih : LoweringStatements k fuel) (context : Context)
    (branches : List (Node × List Node)) (c : Cursor) :
    elifs (fuel + 1) context (Node.movedBranches (Place.lower k) branches) (c.lower k) =
      lowered (Node.movedBranches (Place.lower k)) k (elifs (fuel + 1) context branches c) := by
  rw [elifs_succ, elifs_succ, Cursor.next_lower, Token.lower_is, Cursor.skip_lower]
  refine lower_ite (lower_bind (expression_lower _ _ _) fun condition c₁ _ => ?_) rfl
  refine lower_bind (ih.block _ _ _) fun body c₂ _ => ?_
  unfold Node.lower
  rw [← Node.movedBranches_snoc]
  exact ih.elifs _ _ _

theorem rules_lower_statements (k fuel : Nat) : LoweringStatements k fuel := by
  induction fuel with
  | zero => constructor <;> intros <;> rfl
  | succ fuel ih =>
    exact ⟨statements_lower ih, statement_lower ih, block_lower ih, elifs_lower ih⟩

end Offside.Parser
