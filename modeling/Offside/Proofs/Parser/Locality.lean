import Offside.Proofs.Parser.Line

/-!
No rule looks past the end of its line. What a rule does with the tokens of a line, and with which
outcome, is settled by these tokens and the NEWLINE after them, whatever follows and whatever was
recorded before; and a line that does not end in a colon opens no block.
-/

namespace Offside.Parser

variable {α β : Type} {l l' : List Token}

structure LineEnd where
  token : Token
  newline : token.kind = .newline

/-- What is not part of a line: the tokens after it, the end of the list, the errors so far. -/
structure Beyond where
  more : List Token
  stop : Token
  errors : List ParseError

namespace Beyond

variable (k : Beyond) (nl : LineEnd)

/-- Before some tokens of a line. -/
def before (l : List Token) : Cursor := ⟨l ++ nl.token :: k.more, k.stop, k.errors⟩

def after : Cursor := ⟨k.more, k.stop, k.errors⟩

@[simp] theorem next_before (l : List Token) : (k.before nl l).next = l.headD nl.token := by
  cases l <;> rfl

theorem second_before (t : Token) (l : List Token) :
    (k.before nl (t :: l)).second = l.headD nl.token := by
  cases l <;> rfl

theorem skip_before (t : Token) (l : List Token) :
    (k.before nl (t :: l)).skip 1 = k.before nl l := rfl

end Beyond

variable {nl : LineEnd}

/-- The end of a line is not among the tokens of lines. -/
theorem head_ofLine (h : (l.headD nl.token).kind.OfLine) : ∃ t l', l = t :: l' := by
  cases l with
  | nil =>
    rw [List.headD_nil, nl.newline] at h
    exact h.elim
  | cons t l' => exact ⟨t, l', rfl⟩

/-- A failure further on in the line, settled by the line. -/
def Stuck (nl : LineEnd) (l : List Token) (r : Beyond → Outcome α) : Prop :=
  ∃ e l', l' <:+ l ∧ ∀ k, r k = .error e (k.before nl l')

/-- An outcome further on in the line, settled by the line. -/
def Settled (nl : LineEnd) (l : List Token) (r : Beyond → Outcome α) : Prop :=
  (∃ a l', l' <:+ l ∧ ∀ k, r k = .ok a (k.before nl l')) ∨ Stuck nl l r

theorem stuck_error (e : Halt) (l : List Token) :
    Stuck nl l fun k => (.error e (k.before nl l) : Outcome α) :=
  ⟨e, l, List.suffix_refl l, fun _ => rfl⟩

theorem stuck_later {r : Beyond → Outcome α} (hl : l' <:+ l) (h : Stuck nl l' r) :
    Stuck nl l r := by
  obtain ⟨e, l₁, h₁, hr⟩ := h
  exact ⟨e, l₁, h₁.trans hl, hr⟩

theorem stuck_bind {x : Rule β} {f : β → Rule α} (hx : Stuck nl l fun k => x (k.before nl l)) :
    Stuck nl l fun k => (x >>= f) (k.before nl l) := by
  obtain ⟨e, l', hl, hx⟩ := hx
  refine ⟨e, l', hl, fun k => ?_⟩
  change (x >>= f) (k.before nl l) = _
  rw [bind_apply, show x (k.before nl l) = _ from hx k]

theorem stuck_lacking (what : String) (l : List Token) :
    Stuck nl l fun k => (lacking what (k.before nl l) : Outcome α) := by
  simp only [lacking, Beyond.next_before]
  exact stuck_error _ l

theorem settled_ok (a : α) (l : List Token) : Settled nl l fun k => .ok a (k.before nl l) :=
  .inl ⟨a, l, List.suffix_refl l, fun _ => rfl⟩

theorem settled_error (e : Halt) (l : List Token) :
    Settled nl l fun k => (.error e (k.before nl l) : Outcome α) :=
  .inr (stuck_error e l)

theorem settled_later {r : Beyond → Outcome α} (hl : l' <:+ l) (h : Settled nl l' r) :
    Settled nl l r := by
  rcases h with ⟨a, l₁, h₁, hr⟩ | h
  · exact .inl ⟨a, l₁, h₁.trans hl, hr⟩
  · exact .inr (stuck_later hl h)

theorem settled_bind {x : Rule β} {f : β → Rule α} (hx : Settled nl l fun k => x (k.before nl l))
    (hf : ∀ b l', l' <:+ l → Settled nl l' fun k => f b (k.before nl l')) :
    Settled nl l fun k => (x >>= f) (k.before nl l) := by
  rcases hx with ⟨b, l', hl, hx⟩ | hx
  · simp only [bind_ok (hx _)]
    exact settled_later hl (hf b l' hl)
  · exact .inr (stuck_bind hx)

theorem settled_ite {p : Prop} [Decidable p] {r r' : Beyond → Outcome α} (h : p → Settled nl l r)
    (k : ¬ p → Settled nl l r') : Settled nl l fun b => if p then r b else r' b := by
  by_cases hp : p
  · simp only [if_pos hp]
    exact h hp
  · simp only [if_neg hp]
    exact k hp

theorem settled_skip {f : Cursor → Outcome α} (hn : (l.headD nl.token).kind.OfLine)
    (hf : ∀ l', l' <:+ l → Settled nl l' fun k => f (k.before nl l')) :
    Settled nl l fun k => f ((k.before nl l).skip 1) := by
  obtain ⟨t, l', rfl⟩ := head_ofLine hn
  have hl := List.suffix_cons t l'
  exact settled_later hl (hf l' hl)

theorem settled_passing {kind : TokenKind} {lexeme : String} {f : Cursor → Outcome α}
    (h : (l.headD nl.token).is kind lexeme = true) (hk : kind.OfLine)
    (hf : ∀ l', l' <:+ l → Settled nl l' fun k => f (k.before nl l')) :
    Settled nl l fun k => f ((k.before nl l).skip 1) :=
  settled_skip ((is_iff.mp h).1 ▸ hk) hf

theorem settled_lacking (what : String) (l : List Token) :
    Settled nl l fun k => (lacking what (k.before nl l) : Outcome α) :=
  .inr (stuck_lacking what l)

theorem settled_expect {kind : TokenKind} {lexeme what : String} {f : Unit → Rule α}
    (hk : kind.OfLine) (hf : ∀ l', l' <:+ l → Settled nl l' fun k => f () (k.before nl l')) :
    Settled nl l fun k => (discard (expect kind lexeme what) >>= f) (k.before nl l) := by
  simp only [expect_bind, Beyond.next_before]
  exact settled_ite (fun h => settled_passing h hk hf) fun _ => settled_lacking what l

theorem settled_expectKind {kind : TokenKind} {what : String} {f : Token → Rule α}
    (hk : kind.OfLine) (hf : ∀ t l', l' <:+ l → Settled nl l' fun k => f t (k.before nl l')) :
    Settled nl l fun k => (expectKind kind what >>= f) (k.before nl l) := by
  simp only [expectKind_bind, Beyond.next_before]
  exact settled_ite (fun h => settled_skip (h ▸ hk) (hf _)) fun _ => settled_lacking what l

theorem settled_afterItem {close what : String} {more : Rule α} {done : α}
    (hmore : ∀ l', l' <:+ l → Settled nl l' fun k => more (k.before nl l')) :
    Settled nl l fun k => afterItem close what more done (k.before nl l) := by
  simp only [afterItem_apply, Beyond.next_before]
  refine settled_ite (fun h => settled_passing h trivial hmore) fun _ => ?_
  exact settled_ite (fun h => settled_passing h trivial fun l' _ => settled_ok done l')
    fun _ => settled_lacking what l

/-! ### Expressions -/

theorem parameters_settled (close what : String) (fuel : Nat) (params : List String)
    (l : List Token) : Settled nl l fun k => parameters close what fuel params (k.before nl l) := by
  induction fuel generalizing params l with
  | zero => exact settled_error _ l
  | succ fuel ih =>
    simp only [parameters_succ, Beyond.next_before]
    refine settled_ite (fun _ => settled_ok params l) fun _ => settled_ite (fun hk => ?_)
      fun _ => settled_lacking what l
    obtain ⟨t, l', rfl⟩ := head_ofLine (show (l.headD nl.token).kind.OfLine from hk ▸ trivial)
    refine settled_later (List.suffix_cons t l') ?_
    refine settled_ite (fun _ => settled_error _ l') fun _ => ?_
    simp only [Beyond.skip_before, Beyond.next_before]
    refine settled_ite (fun h => ?_) fun _ => settled_ok _ l'
    exact settled_passing h trivial fun l'' _ => ih _ l''

structure Settling (nl : LineEnd) (fuel : Nat) : Prop where
  expression : ∀ level l, Settled nl l fun k => expression fuel level (k.before nl l)
  climb : ∀ level left l, Settled nl l fun k => climb fuel level left (k.before nl l)
  operand : ∀ level l, Settled nl l fun k => operand fuel level (k.before nl l)
  postfixes : ∀ node l, Settled nl l fun k => postfixes fuel node (k.before nl l)
  sequence : ∀ close what items l,
    Settled nl l fun k => sequence fuel close what items (k.before nl l)
  entries : ∀ read l, Settled nl l fun k => entries fuel read (k.before nl l)
  primary : ∀ l, Settled nl l fun k => primary fuel (k.before nl l)

variable {fuel : Nat}

theorem operator_newline (t : Token) : binaryOperator? nl.token t = none := by
  simp [binaryOperator?, nl.newline]

/-- An operator takes its token, and perhaps a keyword after it. -/
theorem operator_width {t second : Token} {op : String} {level width : Nat}
    (h : binaryOperator? t second = some (op, level, width)) :
    t.kind.OfLine ∧ (width = 1 ∨ width = 2 ∧ second.kind.OfLine) := by
  have hone {lexeme : String}
      (h : (precedence? lexeme).map (fun level => (lexeme, level, 1)) = some (op, level, width)) :
      width = 1 := by
    obtain ⟨l, -, he⟩ := Option.map_eq_some_iff.mp h
    cases he
    rfl
  unfold binaryOperator? at h
  split_ifs at h with h₁ h₂ h₃ h₄
  · exact ⟨h₁ ▸ trivial, .inl (hone h)⟩
  · exact ⟨h₂ ▸ trivial, .inl (hone h)⟩
  · obtain ⟨l, -, he⟩ := Option.map_eq_some_iff.mp h
    cases he
    exact ⟨h₂ ▸ trivial, .inr ⟨rfl, (is_iff.mp h₄.2).1 ▸ trivial⟩⟩

theorem climb_settled (ih : Settling nl fuel) (level : Nat) (left : Node) (l : List Token) :
    Settled nl l fun k => climb (fuel + 1) level left (k.before nl l) := by
  simp only [climb_succ, Beyond.next_before]
  cases l with
  | nil =>
    simp only [List.headD_nil, operator_newline]
    exact settled_ok left []
  | cons t l =>
    simp only [Beyond.second_before, List.headD_cons]
    cases ho : binaryOperator? t (l.headD nl.token) with
    | none => exact settled_ok left _
    | some o =>
      obtain ⟨op, opLevel, width⟩ := o
      have hright (l' : List Token) : Settled nl l' fun k =>
          (expression fuel (opLevel + 1) >>= fun right =>
            climb fuel level (.binaryOp t.pos op left right)) (k.before nl l') :=
        settled_bind (ih.expression _ l') fun _ l'' _ => ih.climb _ _ l''
      refine settled_ite (fun _ => settled_ok left _) fun _ => ?_
      obtain ⟨-, rfl | ⟨rfl, hsecond⟩⟩ := operator_width ho
      · exact settled_later (List.suffix_cons t l) (hright l)
      · obtain ⟨s, l', rfl⟩ := head_ofLine hsecond
        have hl := (List.suffix_cons s l').trans (List.suffix_cons t _)
        exact settled_later hl (hright l')

theorem operand_settled (ih : Settling nl fuel) (level : Nat) (l : List Token) :
    Settled nl l fun k => operand (fuel + 1) level (k.before nl l) := by
  simp only [operand_succ, Beyond.next_before]
  refine settled_ite (fun hk => settled_ite (fun _ => settled_error _ l) fun _ => ?_) fun _ =>
    settled_ite (fun hk => ?_) fun _ => settled_ite (fun hk => settled_ite
      (fun _ => settled_error _ l) fun _ => ?_) fun _ => ?_
  · refine settled_passing hk trivial fun l' _ => ?_
    exact settled_bind (ih.expression _ l') fun _ l'' _ => settled_ok _ l''
  · refine settled_passing hk trivial fun l' _ => ?_
    exact settled_bind (ih.expression _ l') fun _ l'' _ => settled_ok _ l''
  · refine settled_passing hk trivial fun l₁ _ => ?_
    refine settled_bind (parameters_settled _ _ _ _ l₁) fun _ l₂ _ => ?_
    refine settled_expect trivial fun l₃ _ => ?_
    exact settled_bind (ih.expression _ l₃) fun _ l₄ _ => settled_ok _ l₄
  · exact settled_bind (ih.primary l) fun _ l' _ => ih.postfixes _ l'

theorem postfixes_settled (ih : Settling nl fuel) (node : Node) (l : List Token) :
    Settled nl l fun k => postfixes (fuel + 1) node (k.before nl l) := by
  simp only [postfixes_succ, Beyond.next_before]
  refine settled_ite (fun hk => settled_passing hk trivial fun l₁ _ => ?_) fun _ =>
    settled_ite (fun hk => settled_passing hk trivial fun l₁ _ => ?_) fun _ =>
    settled_ite (fun hk => settled_passing hk trivial fun l₁ _ => ?_) fun _ => settled_ok node l
  · exact settled_bind (ih.sequence _ _ _ l₁) fun _ l₂ _ => ih.postfixes _ l₂
  · refine settled_bind (ih.expression _ l₁) fun _ l₂ _ => ?_
    exact settled_expect trivial fun l₃ _ => ih.postfixes _ l₃
  · exact settled_expectKind trivial fun _ l₂ _ => ih.postfixes _ l₂

theorem sequence_settled (ih : Settling nl fuel) (close what : String) (items : List Node)
    (l : List Token) :
    Settled nl l fun k => sequence (fuel + 1) close what items (k.before nl l) := by
  simp only [sequence_succ, Beyond.next_before]
  refine settled_ite (fun hk => settled_passing hk trivial fun l' _ => settled_ok items l')
    fun _ => ?_
  refine settled_bind (ih.expression _ l) fun _ l₁ _ => ?_
  exact settled_afterItem fun l₂ _ => ih.sequence _ _ _ l₂

theorem entries_settled (ih : Settling nl fuel) (read : List (Node × Node)) (l : List Token) :
    Settled nl l fun k => entries (fuel + 1) read (k.before nl l) := by
  simp only [entries_succ, Beyond.next_before]
  refine settled_ite (fun hk => settled_passing hk trivial fun l' _ => settled_ok read l')
    fun _ => ?_
  refine settled_bind (ih.expression _ l) fun _ l₁ _ => settled_expect trivial fun l₂ _ => ?_
  refine settled_bind (ih.expression _ l₂) fun _ l₃ _ => ?_
  exact settled_afterItem fun l₄ _ => ih.entries _ l₄

theorem primary_settled (ih : Settling nl fuel) (l : List Token) :
    Settled nl l fun k => primary (fuel + 1) (k.before nl l) := by
  simp only [primary_succ, Beyond.next_before]
  rcases ha : atom? (l.headD nl.token) with _ | f | node
  · refine settled_ite (fun hk => settled_passing hk trivial fun l₁ _ => ?_) fun _ =>
      settled_ite (fun hk => settled_passing hk trivial fun l₁ _ => ?_) fun _ =>
      settled_ite (fun hk => settled_passing hk trivial fun l₁ _ => ?_) fun _ =>
      settled_lacking _ l
    · refine settled_bind (ih.expression _ l₁) fun _ l₂ _ => ?_
      exact settled_expect trivial fun l₃ _ => settled_ok _ l₃
    · exact settled_bind (ih.sequence _ _ _ l₁) fun _ l₂ _ => settled_ok _ l₂
    · exact settled_bind (ih.entries _ l₁) fun _ l₂ _ => settled_ok _ l₂
  · exact settled_skip (atom_ofLine ha) fun l' _ => settled_error _ l'
  · exact settled_skip (atom_ofLine ha) fun l' _ => settled_ok node l'

theorem rules_settle (nl : LineEnd) (fuel : Nat) : Settling nl fuel := by
  induction fuel with
  | zero => constructor <;> intros <;> exact settled_error _ _
  | succ fuel ih =>
    refine ⟨?_, climb_settled ih, operand_settled ih, postfixes_settled ih, sequence_settled ih,
      entries_settled ih, primary_settled ih⟩
    intro level l
    simp only [expression_succ]
    exact settled_bind (ih.operand level l) fun _ l' _ => ih.climb _ _ l'

theorem expression_settled (fuel level : Nat) (l : List Token) :
    Settled nl l fun k => expression fuel level (k.before nl l) :=
  (rules_settle nl fuel).expression level l

/-! ### Statements -/

/-- An outcome after the line or, in case of failure, in it, settled by the line. -/
def Concluded (nl : LineEnd) (l : List Token) (r : Beyond → Outcome α) : Prop :=
  (∃ a, ∀ k, r k = .ok a k.after) ∨ Stuck nl l r

theorem concluded_error (e : Halt) (l : List Token) :
    Concluded nl l fun k => (.error e (k.before nl l) : Outcome α) :=
  .inr (stuck_error e l)

theorem concluded_later {r : Beyond → Outcome α} (hl : l' <:+ l) (h : Concluded nl l' r) :
    Concluded nl l r := by
  rcases h with h | h
  · exact .inl h
  · exact .inr (stuck_later hl h)

theorem concluded_bind {x : Rule β} {f : β → Rule α}
    (hx : Settled nl l fun k => x (k.before nl l))
    (hf : ∀ b l', l' <:+ l → Concluded nl l' fun k => f b (k.before nl l')) :
    Concluded nl l fun k => (x >>= f) (k.before nl l) := by
  rcases hx with ⟨b, l', hl, hx⟩ | hx
  · simp only [bind_ok (hx _)]
    exact concluded_later hl (hf b l' hl)
  · exact .inr (stuck_bind hx)

theorem concluded_ite {p : Prop} [Decidable p] {r r' : Beyond → Outcome α}
    (h : p → Concluded nl l r) (k : ¬ p → Concluded nl l r') :
    Concluded nl l fun b => if p then r b else r' b := by
  by_cases hp : p
  · simp only [if_pos hp]
    exact h hp
  · simp only [if_neg hp]
    exact k hp

theorem concluded_either {p : Prop} [Decidable p] {x y : Rule α}
    (h : Concluded nl l fun k => x (k.before nl l))
    (h' : Concluded nl l fun k => y (k.before nl l)) :
    Concluded nl l fun k => (if p then x else y) (k.before nl l) := by
  by_cases hp : p
  · simp only [if_pos hp]
    exact h
  · simp only [if_neg hp]
    exact h'

theorem concluded_skip {f : Cursor → Outcome α} (hn : (l.headD nl.token).kind.OfLine)
    (hf : ∀ l', l' <:+ l → Concluded nl l' fun k => f (k.before nl l')) :
    Concluded nl l fun k => f ((k.before nl l).skip 1) := by
  obtain ⟨t, l', rfl⟩ := head_ofLine hn
  have hl := List.suffix_cons t l'
  exact concluded_later hl (hf l' hl)

theorem concluded_endOfLine (a : α) (l : List Token) (hl : ∀ t ∈ l, t.kind.OfLine) :
    Concluded nl l fun k => (endOfLine >>= fun _ => pure a) (k.before nl l) := by
  simp only [endOfLine_bind, Beyond.next_before]
  refine concluded_ite (fun h => ?_) fun _ => ?_
  · cases l with
    | nil => exact .inl ⟨a, fun _ => rfl⟩
    | cons t l =>
      have ht := hl t List.mem_cons_self
      rw [show t.kind = .newline from h] at ht
      exact ht.elim
  · exact .inr (stuck_lacking _ l)

theorem simpleStatement_concluded (fuel : Nat) (l : List Token) (hl : ∀ t ∈ l, t.kind.OfLine) :
    Concluded nl l fun k => simpleStatement fuel (k.before nl l) := by
  simp only [simpleStatement_apply, Beyond.next_before]
  refine concluded_bind (expression_settled _ _ l) fun expr l₁ h₁ => ?_
  simp only [simpleTail_apply, Beyond.next_before]
  have hl₁ := fun t ht => hl t (h₁.subset ht)
  refine concluded_ite (fun ha => concluded_ite (fun _ => ?_) fun _ => concluded_error _ l₁)
    fun _ => concluded_endOfLine _ l₁ hl₁
  have hk : (l₁.headD nl.token).kind = .operator := by simpa using (Bool.and_eq_true_iff.mp ha).1
  refine concluded_skip (hk ▸ trivial) fun l₂ h₂ => ?_
  refine concluded_bind (expression_settled _ _ l₂) fun value l₃ h₃ => ?_
  exact concluded_endOfLine _ l₃ fun t ht => hl₁ t (h₂.subset (h₃.subset ht))

theorem returnStatement_concluded (fuel : Nat) (context : Context) (l : List Token)
    (hl : ∀ t ∈ l, t.kind.OfLine) (hn : (l.headD nl.token).kind.OfLine) :
    Concluded nl l fun k => returnStatement fuel context (k.before nl l) := by
  obtain ⟨t, l, rfl⟩ := head_ofLine hn
  have hl' := (List.forall_mem_cons.mp hl).2
  simp only [returnStatement_apply, Beyond.skip_before, Beyond.next_before]
  refine concluded_ite (fun _ => concluded_later (List.suffix_cons t l) ?_)
    fun _ => concluded_error _ _
  refine concluded_ite (fun _ => concluded_endOfLine _ l hl') fun _ => ?_
  refine concluded_bind (expression_settled _ _ l) fun value l₁ h₁ => ?_
  exact concluded_endOfLine _ l₁ fun t ht => hl' t (h₁.subset ht)

theorem loopStatement_concluded (context : Context) (build : Place → Node) (l : List Token)
    (hl : ∀ t ∈ l, t.kind.OfLine) (hn : (l.headD nl.token).kind.OfLine) :
    Concluded nl l fun k => loopStatement context build (k.before nl l) := by
  simp only [loopStatement_apply, Beyond.next_before]
  refine concluded_ite (fun _ => ?_) fun _ => concluded_error _ l
  exact concluded_skip hn fun l₁ h₁ => concluded_endOfLine _ l₁ fun t ht => hl t (h₁.subset ht)

theorem passStatement_concluded (l : List Token) (hl : ∀ t ∈ l, t.kind.OfLine)
    (hn : (l.headD nl.token).kind.OfLine) :
    Concluded nl l fun k => passStatement (k.before nl l) := by
  simp only [passStatement_apply, Beyond.next_before]
  exact concluded_skip hn fun l₁ h₁ => concluded_endOfLine _ l₁ fun t ht => hl t (h₁.subset ht)

theorem deleteStatement_concluded (fuel : Nat) (l : List Token) (hl : ∀ t ∈ l, t.kind.OfLine)
    (hn : (l.headD nl.token).kind.OfLine) :
    Concluded nl l fun k => deleteStatement fuel (k.before nl l) := by
  simp only [deleteStatement_apply, Beyond.next_before]
  refine concluded_skip hn fun l₁ h₁ => ?_
  refine concluded_bind (expression_settled _ _ l₁) fun target l₂ h₂ => ?_
  unfold deleteTail
  split
  · exact concluded_endOfLine _ l₂ fun t ht => hl t (h₁.subset (h₂.subset ht))
  · exact concluded_error _ l₂

/-- A line on its own: its last token is no colon. -/
structure Freestanding (l : List Token) : Prop where
  ofLine : ∀ t ∈ l, t.kind.OfLine
  last : ∀ t ∈ l.getLast?, t.is .delimiter ":" = false

theorem Freestanding.later (h : Freestanding l) (hl : l' <:+ l) : Freestanding l' := by
  refine ⟨fun t ht => h.ofLine t (hl.subset ht), fun t ht => h.last t ?_⟩
  obtain ⟨u, rfl⟩ := hl
  cases l' with
  | nil => cases ht
  | cons x l' => rwa [List.getLast?_append_of_ne_nil u (List.cons_ne_nil x l')]

/-- No block starts in a freestanding line: what follows a colon is in the line, too. -/
theorem block_stuck (fuel : Nat) (context : Context) (header : String) (hl : Freestanding l) :
    Stuck nl l fun k => block fuel context header (k.before nl l) := by
  cases fuel with
  | zero => exact stuck_error _ l
  | succ fuel =>
    simp only [block_succ, expect_bind, Beyond.next_before]
    by_cases hcolon : (l.headD nl.token).is .delimiter ":" = true
    · obtain ⟨t, l, rfl⟩ := head_ofLine
        (show (l.headD nl.token).kind.OfLine from (is_iff.mp hcolon).1 ▸ trivial)
      rw [List.headD_cons] at hcolon
      have hne : l ≠ [] := by
        rintro rfl
        have hlast := hl.last t rfl
        rw [hcolon] at hlast
        cases hlast
      obtain ⟨s, l, rfl⟩ := List.exists_cons_of_ne_nil hne
      have hs : ¬ s.kind = .newline := by
        intro h
        have hline := hl.ofLine s (by simp)
        rw [h] at hline
        exact hline
      simp only [List.headD_cons, if_pos hcolon, Beyond.skip_before, expectKind_discard_bind,
        Beyond.next_before, if_neg hs]
      exact stuck_later (List.suffix_cons t _) (stuck_lacking _ _)
    · simp only [if_neg hcolon]
      exact stuck_lacking _ l

theorem ifTail_concluded (context : Context) (pos : Position) (hl : Freestanding l) :
    Concluded nl l fun k => ifTail fuel context pos (k.before nl l) := by
  unfold ifTail
  refine concluded_bind (expression_settled _ _ l) fun _ l₁ h₁ => ?_
  exact .inr (stuck_bind (block_stuck _ _ _ (hl.later h₁)))

theorem whileTail_concluded (context : Context) (pos : Position) (hl : Freestanding l) :
    Concluded nl l fun k => whileTail fuel context pos (k.before nl l) := by
  unfold whileTail
  refine concluded_bind (expression_settled _ _ l) fun _ l₁ h₁ => ?_
  exact .inr (stuck_bind (block_stuck _ _ _ (hl.later h₁)))

theorem forTail_concluded (context : Context) (pos : Position) (hl : Freestanding l) :
    Concluded nl l fun k => forTail fuel context pos (k.before nl l) := by
  unfold forTail
  simp only [expectKind_bind, expect_bind, Beyond.next_before]
  refine concluded_ite (fun hn => ?_) fun _ => .inr (stuck_lacking _ l)
  obtain ⟨t, l, rfl⟩ := head_ofLine (show (l.headD nl.token).kind.OfLine from hn ▸ trivial)
  refine concluded_later (List.suffix_cons t l) ?_
  simp only [Beyond.skip_before, Beyond.next_before]
  refine concluded_ite (fun hin => ?_) fun _ => .inr (stuck_lacking _ l)
  refine concluded_skip ((is_iff.mp hin).1 ▸ trivial) fun l₁ h₁ => ?_
  refine concluded_bind (expression_settled _ _ l₁) fun _ l₂ h₂ => ?_
  have h := h₂.trans (h₁.trans (List.suffix_cons t l))
  exact .inr (stuck_bind (block_stuck _ _ _ (hl.later h)))

theorem defTail_concluded (pos : Position) (hl : Freestanding l) :
    Concluded nl l fun k => defTail fuel pos (k.before nl l) := by
  unfold defTail
  simp only [expectKind_bind, expect_bind, Beyond.next_before]
  refine concluded_ite (fun hn => ?_) fun _ => .inr (stuck_lacking _ l)
  obtain ⟨t, l, rfl⟩ := head_ofLine (show (l.headD nl.token).kind.OfLine from hn ▸ trivial)
  refine concluded_later (List.suffix_cons t l) ?_
  simp only [Beyond.skip_before, Beyond.next_before]
  refine concluded_ite (fun ho => ?_) fun _ => .inr (stuck_lacking _ l)
  refine concluded_skip ((is_iff.mp ho).1 ▸ trivial) fun l₁ h₁ => ?_
  refine concluded_bind (parameters_settled _ _ _ _ l₁) fun _ l₂ h₂ => ?_
  simp only [expect_bind, Beyond.next_before]
  refine concluded_ite (fun hc => ?_) fun _ => .inr (stuck_lacking _ l₂)
  refine concluded_skip ((is_iff.mp hc).1 ▸ trivial) fun l₃ h₃ => ?_
  have h := h₃.trans (h₂.trans (h₁.trans (List.suffix_cons t l)))
  exact .inr (stuck_bind (block_stuck _ _ _ (hl.later h)))

/-- What a statement makes of a freestanding line is settled by the line. -/
theorem statement_concluded (fuel : Nat) (context : Context) (hne : l ≠ []) (hl : Freestanding l) :
    Concluded nl l fun k => statement fuel context (k.before nl l) := by
  cases fuel with
  | zero => exact concluded_error _ l
  | succ fuel =>
    obtain ⟨t, l, rfl⟩ := List.exists_cons_of_ne_nil hne
    have hn : ((t :: l).headD nl.token).kind.OfLine := hl.ofLine t List.mem_cons_self
    have hsuffix := List.suffix_cons t l
    have hl' := hl.later hsuffix
    have hsimple : Concluded nl (t :: l) fun k => simpleStatement fuel (k.before nl (t :: l)) :=
      simpleStatement_concluded fuel (t :: l) hl.ofLine
    simp only [statement_succ, Beyond.next_before]
    refine concluded_ite (fun _ => ?_) fun _ => concluded_ite (fun hi => ?_) fun _ => hsimple
    · unfold wordRule
      refine concluded_either (concluded_later hsuffix (ifTail_concluded _ _ hl')) ?_
      refine concluded_either (concluded_later hsuffix (whileTail_concluded _ _ hl')) ?_
      refine concluded_either (concluded_later hsuffix (forTail_concluded _ _ hl')) ?_
      refine concluded_either (concluded_later hsuffix (defTail_concluded _ hl')) ?_
      refine concluded_either (returnStatement_concluded _ _ _ hl.ofLine hn) ?_
      refine concluded_either (loopStatement_concluded _ _ _ hl.ofLine hn) ?_
      refine concluded_either (loopStatement_concluded _ _ _ hl.ofLine hn) ?_
      refine concluded_either (passStatement_concluded _ hl.ofLine hn) ?_
      exact concluded_either (deleteStatement_concluded _ _ hl.ofLine hn) hsimple
    · rw [hi] at hn
      exact hn.elim

end Offside.Parser
