import Offside.Proofs.Parser.Longer
import Offside.Proofs.Parser.StatementFuel

/-!
Nothing behind the first END is looked at. A rule reads a list that goes on behind an END as it
reads the list that ends there: it gives the same and stops at the same token, since no rule passes
an END, nor looks at a second token before it has seen that the next one is no END.
-/

namespace Offside.Parser

variable {α β : Type} {more : List Token} {stop : Token} {c c' c₁ : Cursor}

theorem room_next (hs : c.stop.kind = .stop) (hk : c.next.kind ≠ .stop) : 1 ≤ c.rest.length := by
  rw [(takes_next hs hk).rest, List.length_append, List.length_singleton]
  exact Nat.le_add_right 1 _

/-- An operator is made of tokens of the list. -/
theorem room_operator (hs : c.stop.kind = .stop) {op : String} {level width : Nat}
    (h : binaryOperator? c.next c.second = some (op, level, width)) : width ≤ c.rest.length := by
  unfold binaryOperator? at h
  split_ifs at h with ho hk hw hn
  · obtain ⟨l, -, he⟩ := Option.map_eq_some_iff.mp h
    cases he
    exact room_next hs (by simp [ho])
  · obtain ⟨l, -, he⟩ := Option.map_eq_some_iff.mp h
    cases he
    exact room_next hs (by simp [hk])
  · obtain ⟨l, -, he⟩ := Option.map_eq_some_iff.mp h
    cases he
    have hsecond : (c.skip 1).next.kind = .keyword := (is_iff.mp hn.2).1
    have hroom : 1 ≤ (c.skip 1).rest.length := room_next (c := c.skip 1) hs (by simp [hsecond])
    rw [Cursor.skip_rest, List.length_drop] at hroom
    omega

/-- A cursor at the same token in a list that goes on behind the END of the first one. -/
structure Outlasts (more : List Token) (stop : Token) (c c' : Cursor) : Prop where
  ends : c.stop.kind = .stop
  rest : c'.rest = c.rest ++ c.stop :: more
  stop : c'.stop = stop
  errors : c'.errors = c.errors

namespace Outlasts

variable (h : Outlasts more stop c c')

include h

theorem next : c'.next = c.next := by
  unfold Cursor.next
  rw [h.rest]
  cases c.rest <;> rfl

theorem after_skip {n : Nat} (hn : n ≤ c.rest.length) : Outlasts more stop (c.skip n) (c'.skip n) := by
  refine ⟨h.ends, ?_, h.stop, h.errors⟩
  simp only [Cursor.skip_rest, h.rest]
  exact List.drop_append_of_le_length hn

theorem skip_next (hk : c.next.kind ≠ .stop) : Outlasts more stop (c.skip 1) (c'.skip 1) :=
  h.after_skip (room_next h.ends hk)

theorem skip_kind {kind : TokenKind} (hn : c.next.kind = kind) (hk : kind ≠ .stop) :
    Outlasts more stop (c.skip 1) (c'.skip 1) :=
  h.skip_next (by rwa [hn])

theorem skip_is {kind : TokenKind} {lexeme : String} (hn : c.next.is kind lexeme = true)
    (hk : kind ≠ .stop) : Outlasts more stop (c.skip 1) (c'.skip 1) :=
  h.skip_kind (is_iff.mp hn).1 hk

theorem operator : binaryOperator? c'.next c'.second = binaryOperator? c.next c.second := by
  rw [h.next]
  by_cases hk : c.next.kind = .stop
  · simp [binaryOperator?, hk]
  · have hsecond : c'.second = c.second := (h.skip_next hk).next
    rw [hsecond]

theorem after_recording (e : ParseError) : Outlasts more stop (c.recording e) (c'.recording e) :=
  ⟨h.ends, h.rest, h.stop, by simp only [Cursor.recording, h.errors]⟩

end Outlasts

/-! ### Passing over a statement -/

theorem dropBlock_outlasts (depth : Nat) (ts : List Token) {e : Token} (he : e.kind = .stop) :
    dropBlock depth (ts ++ e :: more) = dropBlock depth ts ++ e :: more := by
  induction ts generalizing depth with
  | nil => simp [dropBlock, he]
  | cons t ts ih =>
    simp only [List.cons_append, dropBlock]
    split
    · rfl
    · exact ih _
    · split
      · rfl
      · exact ih _
    · exact ih _

theorem dropLine_outlasts (ts : List Token) {e : Token} (he : e.kind = .stop) :
    dropLine (ts ++ e :: more) = dropLine ts ++ e :: more := by
  induction ts with
  | nil => simp [dropLine, he]
  | cons t ts ih =>
    simp only [List.cons_append, dropLine]
    split
    · rfl
    · rfl
    · cases ts with
      | nil => simp [he]
      | cons u ts =>
        simp only [List.cons_append]
        split
        · exact dropBlock_outlasts 0 (u :: ts) he
        · rfl
    · exact ih

theorem dropStatement_outlasts (ts : List Token) {e : Token} (he : e.kind = .stop) :
    dropStatement (ts ++ e :: more) = dropStatement ts ++ e :: more := by
  cases ts with
  | nil => simp [dropStatement, dropLine, he]
  | cons t ts =>
    simp only [List.cons_append, dropStatement]
    split
    · exact dropBlock_outlasts 0 (t :: ts) he
    · exact dropLine_outlasts (t :: ts) he

theorem dropNewlines_outlasts (ts : List Token) {e : Token} (he : e.kind = .stop) :
    (ts ++ e :: more).dropWhile (·.kind == .newline) =
      ts.dropWhile (·.kind == .newline) ++ e :: more := by
  induction ts with
  | nil => simp [he]
  | cons t ts ih =>
    simp only [List.cons_append, List.dropWhile_cons]
    split
    · exact ih
    · rfl

theorem Outlasts.afterNewlines (h : Outlasts more stop c c') :
    Outlasts more stop c.afterNewlines c'.afterNewlines := by
  refine ⟨h.ends, ?_, h.stop, h.errors⟩
  simp only [Cursor.afterNewlines, h.rest]
  exact dropNewlines_outlasts c.rest h.ends

theorem Outlasts.after_recovery (h : Outlasts more stop c c') (e : ParseError) :
    Outlasts more stop (c.recovered e) (c'.recovered e) := by
  refine ⟨h.ends, ?_, h.stop, (h.after_recording e).errors⟩
  simp only [Cursor.recovered, h.rest]
  exact dropStatement_outlasts c.rest h.ends

/-! ### Outcomes -/

/-- The same outcome in the longer list. -/
def Echoes (more : List Token) (stop : Token) : Outcome α → Outcome α → Prop
  | .ok a c, .ok b c' => b = a ∧ Outlasts more stop c c'
  | .error e c, .error f c' => f = e ∧ Outlasts more stop c c'
  | _, _ => False

theorem echoes_ok (a : α) (h : Outlasts more stop c c') : Echoes more stop (.ok a c) (.ok a c') :=
  ⟨rfl, h⟩

theorem echoes_error (e : Halt) (h : Outlasts more stop c c') :
    Echoes more stop (.error e c : Outcome α) (.error e c') :=
  ⟨rfl, h⟩

theorem echoes_lacking (what : String) (h : Outlasts more stop c c') :
    Echoes more stop (lacking what c : Outcome α) (lacking what c') := by
  unfold lacking
  rw [h.next]
  exact echoes_error _ h

theorem echoes_bind {x : Rule β} {f f' : β → Rule α} (hx : Echoes more stop (x c) (x c'))
    (hf : ∀ b c₁ c₁', Outlasts more stop c₁ c₁' → Echoes more stop (f b c₁) (f' b c₁')) :
    Echoes more stop ((x >>= f) c) ((x >>= f') c') := by
  rw [bind_apply, bind_apply]
  cases hr : x c with
  | ok b c₁ =>
    cases hr' : x c' with
    | ok b' c₁' =>
      rw [hr, hr'] at hx
      obtain ⟨rfl, h⟩ := hx
      exact hf _ _ _ h
    | error e' c₁' =>
      rw [hr, hr'] at hx
      exact hx.elim
  | error e c₁ =>
    cases hr' : x c' with
    | ok b' c₁' =>
      rw [hr, hr'] at hx
      exact hx.elim
    | error e' c₁' =>
      rw [hr, hr'] at hx
      exact hx

theorem echoes_ite {p : Prop} [Decidable p] {r r' s s' : Outcome α} (h : p → Echoes more stop r r')
    (k : ¬ p → Echoes more stop s s') :
    Echoes more stop (if p then r else s) (if p then r' else s') := by
  split
  · next hp => exact h hp
  · next hp => exact k hp

theorem echoes_either {p : Prop} [Decidable p] {x y : Rule α} (h : Echoes more stop (x c) (x c'))
    (k : Echoes more stop (y c) (y c')) :
    Echoes more stop ((if p then x else y) c) ((if p then x else y) c') := by
  split
  · exact h
  · exact k

theorem echoes_expect {kind : TokenKind} {lexeme what : String} {f f' : Unit → Rule α}
    (h : Outlasts more stop c c') (hk : kind ≠ .stop)
    (hf : ∀ c₁ c₁', Outlasts more stop c₁ c₁' → Echoes more stop (f () c₁) (f' () c₁')) :
    Echoes more stop ((discard (expect kind lexeme what) >>= f) c)
      ((discard (expect kind lexeme what) >>= f') c') := by
  rw [expect_bind, expect_bind, h.next]
  exact echoes_ite (fun hn => hf _ _ (h.skip_is hn hk)) fun _ => echoes_lacking what h

theorem echoes_expectKind {kind : TokenKind} {what : String} {f f' : Token → Rule α}
    (h : Outlasts more stop c c') (hk : kind ≠ .stop)
    (hf : ∀ t c₁ c₁', Outlasts more stop c₁ c₁' → Echoes more stop (f t c₁) (f' t c₁')) :
    Echoes more stop ((expectKind kind what >>= f) c) ((expectKind kind what >>= f') c') := by
  rw [expectKind_bind, expectKind_bind, h.next]
  exact echoes_ite (fun hn => hf _ _ _ (h.skip_kind hn hk)) fun _ => echoes_lacking what h

theorem echoes_expectToken {kind : TokenKind} {what : String} {f f' : Unit → Rule α}
    (h : Outlasts more stop c c') (hk : kind ≠ .stop)
    (hf : ∀ c₁ c₁', Outlasts more stop c₁ c₁' → Echoes more stop (f () c₁) (f' () c₁')) :
    Echoes more stop ((discard (expectKind kind what) >>= f) c)
      ((discard (expectKind kind what) >>= f') c') := by
  rw [expectKind_discard_bind, expectKind_discard_bind, h.next]
  exact echoes_ite (fun hn => hf _ _ (h.skip_kind hn hk)) fun _ => echoes_lacking what h

theorem echoes_endOfLine (a : α) (h : Outlasts more stop c c') :
    Echoes more stop ((endOfLine >>= fun _ => pure a) c) ((endOfLine >>= fun _ => pure a) c') := by
  rw [endOfLine_bind, endOfLine_bind, h.next]
  exact echoes_ite (fun hn => echoes_ok a (h.skip_kind hn nofun)) fun _ => echoes_lacking _ h

theorem echoes_afterItem {close what : String} {next : Rule α} (done : α)
    (h : Outlasts more stop c c')
    (hmore : ∀ c₁ c₁', Outlasts more stop c₁ c₁' → Echoes more stop (next c₁) (next c₁')) :
    Echoes more stop (afterItem close what next done c) (afterItem close what next done c') := by
  rw [afterItem_apply, afterItem_apply, h.next]
  exact echoes_ite (fun hn => hmore _ _ (h.skip_is hn nofun)) fun _ =>
    echoes_ite (fun hn => echoes_ok done (h.skip_is hn nofun)) fun _ => echoes_lacking what h

/-! ### Expressions -/

theorem parameters_echo (close what : String) (fuel : Nat) :
    ∀ ps c c', Outlasts more stop c c' →
      Echoes more stop (parameters close what fuel ps c) (parameters close what fuel ps c') := by
  induction fuel with
  | zero => exact fun _ _ _ h => echoes_error _ h
  | succ fuel ih =>
    intro ps c c' h
    rw [parameters_succ, parameters_succ, h.next]
    refine echoes_ite (fun _ => echoes_ok ps h) fun _ => echoes_ite (fun hn => ?_)
      fun _ => echoes_lacking what h
    have h₁ := h.skip_kind hn nofun
    refine echoes_ite (fun _ => echoes_error _ h₁) fun _ => ?_
    rw [h₁.next]
    refine echoes_ite (fun hc => ?_) fun _ => echoes_ok _ h₁
    have h₂ := h₁.skip_is hc nofun
    rw [Cursor.skip_skip, Cursor.skip_skip] at h₂
    exact ih _ _ _ h₂

/-- The rules for expressions in a list that goes on behind an END. -/
structure Echoing (more : List Token) (stop : Token) (fuel : Nat) : Prop where
  expression : ∀ level c c', Outlasts more stop c c' →
    Echoes more stop (expression fuel level c) (expression fuel level c')
  climb : ∀ level left c c', Outlasts more stop c c' →
    Echoes more stop (climb fuel level left c) (climb fuel level left c')
  operand : ∀ level c c', Outlasts more stop c c' →
    Echoes more stop (operand fuel level c) (operand fuel level c')
  postfixes : ∀ node c c', Outlasts more stop c c' →
    Echoes more stop (postfixes fuel node c) (postfixes fuel node c')
  sequence : ∀ close what items c c', Outlasts more stop c c' →
    Echoes more stop (sequence fuel close what items c) (sequence fuel close what items c')
  entries : ∀ read c c', Outlasts more stop c c' →
    Echoes more stop (entries fuel read c) (entries fuel read c')
  primary : ∀ c c', Outlasts more stop c c' →
    Echoes more stop (primary fuel c) (primary fuel c')

variable {fuel : Nat}

theorem expression_echoes (ih : Echoing more stop fuel) (level : Nat) (c c' : Cursor)
    (h : Outlasts more stop c c') :
    Echoes more stop (expression (fuel + 1) level c) (expression (fuel + 1) level c') := by
  rw [expression_succ, expression_succ]
  exact echoes_bind (ih.operand _ _ _ h) fun _ _ _ h₁ => ih.climb _ _ _ _ h₁

theorem climb_echoes (ih : Echoing more stop fuel) (level : Nat) (left : Node) (c c' : Cursor)
    (h : Outlasts more stop c c') :
    Echoes more stop (climb (fuel + 1) level left c) (climb (fuel + 1) level left c') := by
  rw [climb_succ, climb_succ, h.operator]
  cases ho : binaryOperator? c.next c.second with
  | none => exact echoes_ok left h
  | some o =>
    obtain ⟨op, opLevel, width⟩ := o
    dsimp only
    rw [h.next]
    refine echoes_ite (fun _ => echoes_ok left h) fun _ => ?_
    have h₁ := h.after_skip (room_operator h.ends ho)
    exact echoes_bind (ih.expression _ _ _ h₁) fun _ _ _ h₂ => ih.climb _ _ _ _ h₂

theorem operand_echoes (ih : Echoing more stop fuel) (level : Nat) (c c' : Cursor)
    (h : Outlasts more stop c c') :
    Echoes more stop (operand (fuel + 1) level c) (operand (fuel + 1) level c') := by
  rw [operand_succ, operand_succ, h.next]
  refine echoes_ite (fun hn => ?_) fun _ => echoes_ite (fun hn => ?_) fun _ =>
    echoes_ite (fun hn => ?_) fun _ => ?_
  · refine echoes_ite (fun _ => echoes_error _ h) fun _ => ?_
    exact echoes_bind (ih.expression _ _ _ (h.skip_is hn nofun)) fun _ _ _ h₁ => echoes_ok _ h₁
  · exact echoes_bind (ih.expression _ _ _ (h.skip_is hn nofun)) fun _ _ _ h₁ => echoes_ok _ h₁
  · refine echoes_ite (fun _ => echoes_error _ h) fun _ => ?_
    refine echoes_bind (parameters_echo _ _ _ _ _ _ (h.skip_is hn nofun)) fun _ _ _ h₁ => ?_
    refine echoes_expect h₁ nofun fun _ _ h₂ => ?_
    exact echoes_bind (ih.expression _ _ _ h₂) fun _ _ _ h₃ => echoes_ok _ h₃
  · exact echoes_bind (ih.primary _ _ h) fun _ _ _ h₁ => ih.postfixes _ _ _ h₁

theorem postfixes_echo (ih : Echoing more stop fuel) (node : Node) (c c' : Cursor)
    (h : Outlasts more stop c c') :
    Echoes more stop (postfixes (fuel + 1) node c) (postfixes (fuel + 1) node c') := by
  rw [postfixes_succ, postfixes_succ, h.next]
  refine echoes_ite (fun hn => ?_) fun _ => echoes_ite (fun hn => ?_) fun _ =>
    echoes_ite (fun hn => ?_) fun _ => echoes_ok node h
  · exact echoes_bind (ih.sequence _ _ _ _ _ (h.skip_is hn nofun)) fun _ _ _ h₁ =>
      ih.postfixes _ _ _ h₁
  · refine echoes_bind (ih.expression _ _ _ (h.skip_is hn nofun)) fun _ _ _ h₁ => ?_
    exact echoes_expect h₁ nofun fun _ _ h₂ => ih.postfixes _ _ _ h₂
  · exact echoes_expectKind (h.skip_is hn nofun) nofun fun _ _ _ h₁ => ih.postfixes _ _ _ h₁

theorem sequence_echoes (ih : Echoing more stop fuel) (close what : String) (items : List Node)
    (c c' : Cursor) (h : Outlasts more stop c c') :
    Echoes more stop (sequence (fuel + 1) close what items c)
      (sequence (fuel + 1) close what items c') := by
  rw [sequence_succ, sequence_succ, h.next]
  refine echoes_ite (fun hn => echoes_ok items (h.skip_is hn nofun)) fun _ => ?_
  refine echoes_bind (ih.expression _ _ _ h) fun _ _ _ h₁ => ?_
  exact echoes_afterItem _ h₁ fun _ _ h₂ => ih.sequence _ _ _ _ _ h₂

theorem entries_echo (ih : Echoing more stop fuel) (read : List (Node × Node)) (c c' : Cursor)
    (h : Outlasts more stop c c') :
    Echoes more stop (entries (fuel + 1) read c) (entries (fuel + 1) read c') := by
  rw [entries_succ, entries_succ, h.next]
  refine echoes_ite (fun hn => echoes_ok read (h.skip_is hn nofun)) fun _ => ?_
  refine echoes_bind (ih.expression _ _ _ h) fun _ _ _ h₁ => ?_
  refine echoes_expect h₁ nofun fun _ _ h₂ => ?_
  refine echoes_bind (ih.expression _ _ _ h₂) fun _ _ _ h₃ => ?_
  exact echoes_afterItem _ h₃ fun _ _ h₄ => ih.entries _ _ _ h₄

theorem primary_echoes (ih : Echoing more stop fuel) (c c' : Cursor)
    (h : Outlasts more stop c c') :
    Echoes more stop (primary (fuel + 1) c) (primary (fuel + 1) c') := by
  rw [primary_succ, primary_succ, h.next]
  rcases ha : atom? c.next with _ | f | node
  · dsimp only
    refine echoes_ite (fun hn => ?_) fun _ => echoes_ite (fun hn => ?_) fun _ =>
      echoes_ite (fun hn => ?_) fun _ => echoes_lacking _ h
    · refine echoes_bind (ih.expression _ _ _ (h.skip_is hn nofun)) fun _ _ _ h₁ => ?_
      exact echoes_expect h₁ nofun fun _ _ h₂ => echoes_ok _ h₂
    · exact echoes_bind (ih.sequence _ _ _ _ _ (h.skip_is hn nofun)) fun _ _ _ h₁ =>
        echoes_ok _ h₁
    · exact echoes_bind (ih.entries _ _ _ (h.skip_is hn nofun)) fun _ _ _ h₁ => echoes_ok _ h₁
  · exact echoes_error _ (h.skip_next fun hk => by simp [atom?, hk] at ha)
  · exact echoes_ok _ (h.skip_next fun hk => by simp [atom?, hk] at ha)

theorem reading_echoes (more : List Token) (stop : Token) (fuel : Nat) :
    Echoing more stop fuel := by
  induction fuel with
  | zero => constructor <;> intros <;> exact echoes_error _ (by assumption)
  | succ fuel ih =>
    exact ⟨expression_echoes ih, climb_echoes ih, operand_echoes ih, postfixes_echo ih,
      sequence_echoes ih, entries_echo ih, primary_echoes ih⟩

/-! ### Statements -/

theorem echoes_expression {level : Nat} {f f' : Node → Rule α} (h : Outlasts more stop c c')
    (hf : ∀ e c₁ c₁', Outlasts more stop c₁ c₁' → Echoes more stop (f e c₁) (f' e c₁')) :
    Echoes more stop ((expression fuel level >>= f) c) ((expression fuel level >>= f') c') :=
  echoes_bind ((reading_echoes more stop fuel).expression _ _ _ h) hf

theorem simpleStatement_echoes (fuel : Nat) (h : Outlasts more stop c c') :
    Echoes more stop (simpleStatement fuel c) (simpleStatement fuel c') := by
  rw [simpleStatement_apply, simpleStatement_apply, h.next]
  refine echoes_expression h fun expr c₁ c₁' h₁ => ?_
  rw [simpleTail_apply, simpleTail_apply, h₁.next]
  refine echoes_ite (fun ha => ?_) fun _ => echoes_endOfLine _ h₁
  refine echoes_ite (fun _ => ?_) fun _ => echoes_error _ h₁
  have hk : c₁.next.kind = .operator := by
    simp only [assigns, Bool.and_eq_true, beq_iff_eq] at ha
    exact ha.1
  exact echoes_expression (h₁.skip_kind hk (by decide)) fun _ _ _ h₂ => echoes_endOfLine _ h₂

theorem returnStatement_echoes (fuel : Nat) (context : Context) (h : Outlasts more stop c c')
    (h₁ : Outlasts more stop (c.skip 1) (c'.skip 1)) :
    Echoes more stop (returnStatement fuel context c) (returnStatement fuel context c') := by
  rw [returnStatement_apply, returnStatement_apply, h.next, h₁.next]
  refine echoes_ite (fun _ => ?_) fun _ => echoes_error _ h
  refine echoes_ite (fun _ => echoes_endOfLine _ h₁) fun _ => ?_
  exact echoes_expression h₁ fun _ _ _ h₂ => echoes_endOfLine _ h₂

theorem loopStatement_echoes (context : Context) (build : Place → Node)
    (h : Outlasts more stop c c') (h₁ : Outlasts more stop (c.skip 1) (c'.skip 1)) :
    Echoes more stop (loopStatement context build c) (loopStatement context build c') := by
  rw [loopStatement_apply, loopStatement_apply, h.next]
  exact echoes_ite (fun _ => echoes_endOfLine _ h₁) fun _ => echoes_error _ h

theorem deleteStatement_echoes (fuel : Nat) (h : Outlasts more stop c c')
    (h₁ : Outlasts more stop (c.skip 1) (c'.skip 1)) :
    Echoes more stop (deleteStatement fuel c) (deleteStatement fuel c') := by
  rw [deleteStatement_apply, deleteStatement_apply, h.next]
  refine echoes_expression h₁ fun target c₂ c₂' h₂ => ?_
  unfold deleteTail
  split
  · exact echoes_endOfLine _ h₂
  · exact echoes_error _ h₂

/-- The rules for statements in a list that goes on behind an END. -/
structure EchoingStatements (more : List Token) (stop : Token) (fuel : Nat) : Prop where
  statements : ∀ context topLevel c c', Outlasts more stop c c' →
    Echoes more stop (statements fuel context topLevel c) (statements fuel context topLevel c')
  statement : ∀ context c c', Outlasts more stop c c' →
    Echoes more stop (statement fuel context c) (statement fuel context c')
  block : ∀ context header c c', Outlasts more stop c c' →
    Echoes more stop (block fuel context header c) (block fuel context header c')
  elifs : ∀ context branches c c', Outlasts more stop c c' →
    Echoes more stop (elifs fuel context branches c) (elifs fuel context branches c')

variable {context : Context} {p : Position}

theorem ifTail_echoes (ih : EchoingStatements more stop fuel) (h : Outlasts more stop c c') :
    Echoes more stop (ifTail fuel context p c) (ifTail fuel context p c') := by
  unfold ifTail
  refine echoes_expression h fun _ c₁ c₁' h₁ => ?_
  refine echoes_bind (ih.block _ _ _ _ h₁) fun _ c₂ c₂' h₂ => ?_
  refine echoes_bind (ih.elifs _ _ _ _ h₂) fun _ c₃ c₃' h₃ => ?_
  rw [accept_bind, accept_bind, h₃.next]
  refine echoes_ite (fun hn => ?_) fun _ => echoes_ok _ h₃
  exact echoes_bind (ih.block _ _ _ _ (h₃.skip_is hn nofun)) fun _ _ _ h₄ => echoes_ok _ h₄

theorem whileTail_echoes (ih : EchoingStatements more stop fuel) (h : Outlasts more stop c c') :
    Echoes more stop (whileTail fuel context p c) (whileTail fuel context p c') := by
  unfold whileTail
  refine echoes_expression h fun _ c₁ c₁' h₁ => ?_
  exact echoes_bind (ih.block _ _ _ _ h₁) fun _ _ _ h₂ => echoes_ok _ h₂

theorem forTail_echoes (ih : EchoingStatements more stop fuel) (h : Outlasts more stop c c') :
    Echoes more stop (forTail fuel context p c) (forTail fuel context p c') := by
  unfold forTail
  refine echoes_expectKind h nofun fun _ c₁ c₁' h₁ => ?_
  refine echoes_expect h₁ nofun fun c₂ c₂' h₂ => ?_
  refine echoes_expression h₂ fun _ c₃ c₃' h₃ => ?_
  exact echoes_bind (ih.block _ _ _ _ h₃) fun _ _ _ h₄ => echoes_ok _ h₄

theorem defTail_echoes (ih : EchoingStatements more stop fuel) (h : Outlasts more stop c c') :
    Echoes more stop (defTail fuel p c) (defTail fuel p c') := by
  unfold defTail
  refine echoes_expectKind h nofun fun _ c₁ c₁' h₁ => ?_
  refine echoes_expect h₁ nofun fun c₂ c₂' h₂ => ?_
  refine echoes_bind (parameters_echo _ _ _ _ _ _ h₂) fun _ c₃ c₃' h₃ => ?_
  refine echoes_expect h₃ nofun fun c₄ c₄' h₄ => ?_
  exact echoes_bind (ih.block _ _ _ _ h₄) fun _ _ _ h₅ => echoes_ok _ h₅

theorem statement_echoes (ih : EchoingStatements more stop fuel) (context : Context)
    (c c' : Cursor) (h : Outlasts more stop c c') :
    Echoes more stop (statement (fuel + 1) context c) (statement (fuel + 1) context c') := by
  rw [statement_succ, statement_succ, h.next]
  refine echoes_ite (fun hk => ?_) fun _ => echoes_ite (fun _ => echoes_error _ h)
    fun _ => simpleStatement_echoes fuel h
  have h₁ := h.skip_kind hk nofun
  have hword {x : Rule Node} (hx : Echoes more stop (x (c.skip 1)) (x (c'.skip 1))) :
      Echoes more stop ((discard advance >>= fun _ => x) c) ((discard advance >>= fun _ => x) c') :=
    hx
  unfold wordRule
  apply echoes_either (hword (ifTail_echoes ih h₁))
  apply echoes_either (hword (whileTail_echoes ih h₁))
  apply echoes_either (hword (forTail_echoes ih h₁))
  apply echoes_either (hword (defTail_echoes ih h₁))
  apply echoes_either (returnStatement_echoes fuel context h h₁)
  apply echoes_either (loopStatement_echoes context _ h h₁)
  apply echoes_either (loopStatement_echoes context _ h h₁)
  apply echoes_either
  · rw [passStatement_apply, passStatement_apply, h.next]
    exact echoes_endOfLine _ h₁
  · exact echoes_either (deleteStatement_echoes fuel h h₁) (simpleStatement_echoes fuel h)

theorem recovering_echoes {rule : Rule Node} (h : Echoes more stop (rule c) (rule c')) :
    Echoes more stop (recovering rule c) (recovering rule c') := by
  rw [recovering_apply, recovering_apply]
  rcases hr : rule c with ⟨s, c₁⟩ | ⟨e, c₁⟩ <;> rcases hr' : rule c' with ⟨s', c₁'⟩ | ⟨e', c₁'⟩ <;>
    rw [hr, hr'] at h
  · obtain ⟨rfl, h⟩ := h
    exact echoes_ok _ h
  · exact h.elim
  · exact h.elim
  · obtain ⟨rfl, h⟩ := h
    cases e' with
    | problem e => exact echoes_ok _ (h.after_recovery e)
    | fault f => exact echoes_error _ h
    | starved => exact echoes_error _ h

theorem statements_echo (ih : EchoingStatements more stop fuel) (context : Context)
    (topLevel : Bool) (c c' : Cursor) (h : Outlasts more stop c c') :
    Echoes more stop (statements (fuel + 1) context topLevel c)
      (statements (fuel + 1) context topLevel c') := by
  have h₁ := h.afterNewlines
  rw [statements_succ, statements_succ, statementsFrom, statementsFrom, h₁.next]
  refine echoes_ite (fun _ => echoes_ok _ h₁) fun _ => echoes_ite (fun hd => ?_) fun _ => ?_
  · refine echoes_ite (fun _ => ih.statements _ _ _ _ ?_) fun _ => echoes_ok _ h₁
    have hroom : 1 ≤ c.afterNewlines.rest.length := room_next h₁.ends (by simp [hd])
    exact (h₁.after_recording _).after_skip hroom
  · refine echoes_bind (recovering_echoes (ih.statement _ _ _ h₁)) fun s c₂ c₂' h₂ => ?_
    cases s with
    | none => exact ih.statements _ _ _ _ h₂
    | some s => exact echoes_bind (ih.statements _ _ _ _ h₂) fun _ _ _ h₃ => echoes_ok _ h₃

theorem block_echoes (ih : EchoingStatements more stop fuel) (context : Context) (header : String)
    (c c' : Cursor) (h : Outlasts more stop c c') :
    Echoes more stop (block (fuel + 1) context header c) (block (fuel + 1) context header c') := by
  rw [block_succ, block_succ]
  refine echoes_expect h nofun fun c₁ c₁' h₁ => ?_
  refine echoes_expectToken h₁ nofun fun c₂ c₂' h₂ => ?_
  refine echoes_expectToken h₂ nofun fun c₃ c₃' h₃ => ?_
  refine echoes_bind (ih.statements _ _ _ _ h₃) fun _ c₄ c₄' h₄ => ?_
  exact echoes_expectToken h₄ nofun fun _ _ h₅ => echoes_ok _ h₅

theorem elifs_echo (ih : EchoingStatements more stop fuel) (context : Context)
    (branches : List (Node × List Node)) (c c' : Cursor) (h : Outlasts more stop c c') :
    Echoes more stop (elifs (fuel + 1) context branches c)
      (elifs (fuel + 1) context branches c') := by
  rw [elifs_succ, elifs_succ, h.next]
  refine echoes_ite (fun hn => ?_) fun _ => echoes_ok branches h
  refine echoes_expression (h.skip_is hn nofun) fun _ c₁ c₁' h₁ => ?_
  exact echoes_bind (ih.block _ _ _ _ h₁) fun _ _ _ h₂ => ih.elifs _ _ _ _ h₂

theorem statements_echoing (more : List Token) (stop : Token) (fuel : Nat) :
    EchoingStatements more stop fuel := by
  induction fuel with
  | zero => constructor <;> intros <;> exact echoes_error _ (by assumption)
  | succ fuel ih => exact ⟨statements_echo ih, statement_echoes ih, block_echoes ih, elifs_echo ih⟩

end Offside.Parser
