import Offside.Proofs.Lexer.Spelling
import Offside.Proofs.Parser.Line

/-!
What parsing keeps through failures and recovery. Errors are recorded at tokens of the list, and a
rule faults at a number only. Where the blocks of the list are nested, a rule for statements leaves
as many of them open as it found, whether it succeeds or fails, and so does passing over a statement
that failed; hence the end of a block is never missing, and none is met outside of blocks.
-/

namespace Offside

/-- What is left inside some blocks. -/
def Inside (blocks : Nat) (ts : List Token) : Prop := ∃ atStart, Nested atStart blocks ts

variable {atStart : Bool} {n : Nat} {t : Token} {ts : List Token}

theorem Nested.after_line (h : Nested atStart n (t :: ts)) (hk : t.kind.OfLine) :
    Nested false n ts := by
  cases h with
  | line _ h => exact h
  | newline h | indent h | dedent h => rw [h] at hk; exact hk.elim

theorem Nested.after_newline (h : Nested atStart n (t :: ts)) (hk : t.kind = .newline) :
    Nested true n ts := by
  cases h with
  | newline _ h => exact h
  | line h => rw [hk] at h; exact h.elim
  | indent h | dedent h => rw [hk] at h; cases h

theorem Nested.after_indent (h : Nested atStart n (t :: ts)) (hk : t.kind = .indent) :
    atStart = true ∧ Nested false (n + 1) ts := by
  cases h with
  | indent _ h => exact ⟨rfl, h⟩
  | line h => rw [hk] at h; exact h.elim
  | newline h | dedent h => rw [hk] at h; cases h

theorem Nested.after_dedent (h : Nested atStart n (t :: ts)) (hk : t.kind = .dedent) :
    ∃ m, n = m + 1 ∧ Nested false m ts := by
  cases h with
  | dedent _ h => exact ⟨_, rfl, h⟩
  | line h => rw [hk] at h; exact h.elim
  | newline h | indent h => rw [hk] at h; cases h

theorem Nested.not_stop (h : Nested atStart n (t :: ts)) : t.kind ≠ .stop := by
  intro hk
  cases h with
  | line h => rw [hk] at h; exact h
  | newline h | indent h | dedent h => rw [hk] at h; cases h

theorem TokenKind.ofLine_of_ne {kind : TokenKind} (hn : kind ≠ .newline) (hi : kind ≠ .indent)
    (hd : kind ≠ .dedent) (hs : kind ≠ .stop) : kind.OfLine := by
  cases kind <;> trivial

namespace Parser

theorem dropBlock_inside {depth : Nat} (hd : 0 < depth) (h : Nested atStart (n + depth) ts) :
    Inside n (dropBlock depth ts) := by
  induction ts generalizing atStart depth with
  | nil =>
    generalize hm : n + depth = m at h
    cases h
    omega
  | cons t ts ih =>
    rw [dropBlock]
    split
    · next hk => exact absurd hk h.not_stop
    · next hk => exact ih (Nat.succ_pos depth) (h.after_indent hk).2
    · next hk =>
      obtain ⟨m, hm, hrest⟩ := h.after_dedent hk
      split
      · obtain rfl : m = n := by omega
        exact ⟨false, hrest⟩
      · obtain rfl : m = n + (depth - 1) := by omega
        exact ih (by omega) hrest
    · next hs hi hd' =>
      by_cases hn : t.kind = .newline
      · exact ih hd (h.after_newline hn)
      · exact ih hd (h.after_line (TokenKind.ofLine_of_ne hn hi hd' hs))

theorem dropHanging_inside {rest : List Token} (hi : t.kind = .indent)
    (h : Nested atStart n (t :: rest)) : Inside n (dropBlock 0 (t :: rest)) := by
  rw [dropBlock, hi]
  exact dropBlock_inside Nat.one_pos (h.after_indent hi).2

theorem afterLine_inside (rest : List Token) : Nested true n rest → Inside n (match rest with
      | [] => []
      | u :: _ => if u.kind = .indent then dropBlock 0 rest else rest) := by
  intro h
  split
  · exact ⟨true, h⟩
  · split
    · next hi => exact dropHanging_inside hi h
    · exact ⟨true, h⟩

/-- A line that starts with no INDENT holds none, and what hangs off it is a whole block. -/
theorem dropLine_inside (h : Nested false n ts) : Inside n (dropLine ts) := by
  induction ts with
  | nil => exact ⟨false, h⟩
  | cons t ts ih =>
    unfold dropLine
    split
    · exact ⟨false, h⟩
    · exact ⟨false, h⟩
    · next hk => exact afterLine_inside ts (h.after_newline hk)
    · next hs hd hn =>
      by_cases hi : t.kind = .indent
      · cases (h.after_indent hi).1
      · exact ih (h.after_line (TokenKind.ofLine_of_ne hn hi hd hs))

theorem dropStatement_inside (h : Inside n ts) : Inside n (dropStatement ts) := by
  obtain ⟨atStart, h⟩ := h
  cases ts with
  | nil => exact ⟨atStart, h⟩
  | cons t ts =>
    rw [dropStatement]
    split
    · next hi => exact dropHanging_inside hi h
    · next hi =>
      refine dropLine_inside ?_
      cases h with
      | line hk h => exact .line hk h
      | newline hk h => exact .newline hk h
      | indent hk => exact absurd hk hi
      | dedent hk h => exact .dedent hk h

variable {α β : Type} {c c' : Cursor} {blocks : Option Nat} {fuel : Nat}

theorem inside_along (h : Inside n c.rest) (ha : Along c c') : Inside n c'.rest := by
  obtain ⟨u, hu, hline⟩ := ha
  obtain ⟨atStart, h⟩ := h
  rw [hu.rest] at h
  clear hu
  induction u generalizing atStart with
  | nil => exact ⟨atStart, h⟩
  | cons t u ih =>
    obtain ⟨ht, hline⟩ := List.forall_mem_cons.mp hline
    exact ih hline false (h.after_line ht)

/-! ### Cursors and outcomes -/

/-- The errors that may arise: where it is known that blocks are nested, none about their end. -/
def Allowed (blocks : Option Nat) (f : ParseFault) : Prop := blocks.isSome = true → f.OfRule

/-- A cursor over what is left of a list, with errors at tokens of the list, inside so many blocks
if that is known. -/
structure Cursor.Sound (ts : List Token) (blocks : Option Nat) (c : Cursor) : Prop extends
    c.In ts where
  errors : ∀ e ∈ c.errors, Allowed blocks e.fault ∧ ∃ t ∈ ts, e.pos = t.pos
  inside : ∀ n ∈ blocks, Inside n c.rest

namespace Cursor.Sound

theorem of_along (h : c.Sound ts blocks) (ha : Along c c') : c'.Sound ts blocks := by
  obtain ⟨u, hu, hline⟩ := ha
  exact ⟨h.toIn.of_along ⟨u, hu, hline⟩, hu.errors ▸ h.errors,
    fun n hn => inside_along (h.inside n hn) ⟨u, hu, hline⟩⟩

theorem onward (h : c.Sound ts blocks) {rest : List Token} (hrest : rest <:+ c.rest)
    (hin : ∀ n ∈ blocks, Inside n rest) : Cursor.Sound ts blocks { c with rest := rest } :=
  ⟨⟨h.kind, h.stop, hrest.trans h.rest⟩, h.errors, hin⟩

theorem skipping (h : c.Sound ts blocks) {outer : Option Nat} (hsome : outer.isSome = blocks.isSome)
    (hin : ∀ n ∈ outer, Inside n (c.rest.drop 1)) : (c.skip 1).Sound ts outer :=
  ⟨⟨h.kind, h.stop, (List.drop_suffix 1 c.rest).trans h.rest⟩,
    fun e he => ⟨fun hs => (h.errors e he).1 (hsome ▸ hs), (h.errors e he).2⟩, hin⟩

/-- The next token is there if it is not the end. -/
theorem next_cons (h : c.Sound ts blocks) (hk : c.next.kind ≠ .stop) :
    ∃ rest, c.rest = c.next :: rest := by
  unfold Cursor.next at hk ⊢
  cases hr : c.rest with
  | nil =>
    rw [hr] at hk
    exact absurd h.kind hk
  | cons t rest => exact ⟨rest, rfl⟩

theorem skip_line (h : c.Sound ts blocks) (hk : c.next.kind.OfLine) : (c.skip 1).Sound ts blocks :=
  h.of_along (along_skip hk)

theorem skip_newline (h : c.Sound ts blocks) (hk : c.next.kind = .newline) :
    (c.skip 1).Sound ts blocks := by
  refine h.skipping rfl fun n hn => ?_
  obtain ⟨rest, hr⟩ := h.next_cons (by rw [hk]; decide)
  obtain ⟨atStart, hin⟩ := h.inside n hn
  rw [hr] at hin ⊢
  exact ⟨true, hin.after_newline hk⟩

theorem skip_indent (h : c.Sound ts blocks) (hk : c.next.kind = .indent) :
    (c.skip 1).Sound ts (blocks.map (· + 1)) := by
  refine h.skipping (Option.isSome_map) fun m hm => ?_
  obtain ⟨n, hn, rfl⟩ := Option.map_eq_some_iff.mp hm
  obtain ⟨rest, hr⟩ := h.next_cons (by rw [hk]; decide)
  obtain ⟨atStart, hin⟩ := h.inside n hn
  rw [hr] at hin ⊢
  exact ⟨false, (hin.after_indent hk).2⟩

theorem skip_dedent (h : c.Sound ts (blocks.map (· + 1))) (hk : c.next.kind = .dedent) :
    (c.skip 1).Sound ts blocks := by
  refine h.skipping Option.isSome_map.symm fun n hn => ?_
  obtain ⟨rest, hr⟩ := h.next_cons (by rw [hk]; decide)
  obtain ⟨atStart, hin⟩ := h.inside (n + 1) (Option.map_eq_some_iff.mpr ⟨n, hn, rfl⟩)
  rw [hr] at hin ⊢
  obtain ⟨m, hm, hin⟩ := hin.after_dedent hk
  obtain rfl : n = m := Nat.succ.inj hm
  exact ⟨false, hin⟩

theorem after_recording (h : c.Sound ts blocks) {e : ParseError} (hf : Allowed blocks e.fault)
    (he : ∃ t ∈ ts, e.pos = t.pos) : (c.recording e).Sound ts blocks :=
  ⟨⟨h.kind, h.stop, h.rest⟩,
    List.forall_mem_append.mpr ⟨h.errors, List.forall_mem_singleton.mpr ⟨hf, he⟩⟩, h.inside⟩

theorem after_recovery (h : c.Sound ts blocks) {e : ParseError} (hf : Allowed blocks e.fault)
    (he : ∃ t ∈ ts, e.pos = t.pos) : (c.recovered e).Sound ts blocks :=
  (h.after_recording hf he).onward (dropStatement_suffix c.rest)
    fun n hn => dropStatement_inside (h.inside n hn)

theorem afterNewlines (h : c.Sound ts blocks) : c.afterNewlines.Sound ts blocks := by
  refine h.onward (List.dropWhile_suffix _) fun n hn => ?_
  obtain ⟨atStart, hin⟩ := h.inside n hn
  generalize c.rest = rest at hin
  induction rest generalizing atStart with
  | nil => exact ⟨atStart, hin⟩
  | cons t rest ih =>
    rw [List.dropWhile_cons]
    split
    · next hk => exact ih true (hin.after_newline (beq_iff_eq.mp hk))
    · exact ⟨atStart, hin⟩

/-- Inside a block, what comes next is not the end. -/
theorem not_stop (h : c.Sound ts (some (n + 1))) : c.next.kind ≠ .stop := by
  obtain ⟨atStart, hin⟩ := h.inside (n + 1) rfl
  unfold Cursor.next
  cases hr : c.rest with
  | nil =>
    rw [hr] at hin
    cases hin
  | cons t rest =>
    rw [hr] at hin
    exact hin.not_stop

/-- Outside of blocks, what comes next closes none. -/
theorem not_dedent (h : c.Sound ts (some 0)) : c.next.kind ≠ .dedent := by
  intro hk
  obtain ⟨rest, hr⟩ := h.next_cons (by rw [hk]; decide)
  obtain ⟨atStart, hin⟩ := h.inside 0 rfl
  rw [hr] at hin
  obtain ⟨m, hm, -⟩ := hin.after_dedent hk
  cases hm

end Cursor.Sound

/-- An outcome inside as many blocks as before; only a fault may end parsing inside others. -/
def Answers (ts : List Token) (blocks : Option Nat) : Outcome α → Prop
  | .ok _ c => c.Sound ts blocks
  | .error e c => Raised (Allowed blocks) ts e ∧ ∃ inner, c.Sound ts inner ∧
      inner.isSome = blocks.isSome ∧ ∀ p, e = .problem p → inner = blocks

theorem answers_error {e : Halt} (hc : c.Sound ts blocks) (h : Raised (Allowed blocks) ts e) :
    Answers ts blocks (.error e c : Outcome α) :=
  ⟨h, blocks, hc, rfl, fun _ _ => rfl⟩

theorem answers_of_inLine {r : Outcome α} (hc : c.Sound ts blocks) (h : InLine ts c r) :
    Answers ts blocks r := by
  cases r with
  | ok a c' => exact hc.of_along h
  | error e c' => exact answers_error (hc.of_along h.1) (h.2.mono fun _ hf _ => hf)

theorem answers_of_endsLine {r : Outcome α} (hc : c.Sound ts blocks) (h : EndsLine ts c r) :
    Answers ts blocks r := by
  cases r with
  | ok a c' =>
    obtain ⟨c₁, ha, hn, rfl⟩ := h
    exact (hc.of_along ha).skip_newline hn
  | error e c' => exact answers_error (hc.of_along h.1) (h.2.mono fun _ hf _ => hf)

theorem answers_bind {x : Rule β} {f : β → Rule α} (hx : Answers ts blocks (x c))
    (hf : ∀ b c', c'.Sound ts blocks → Answers ts blocks (f b c')) :
    Answers ts blocks ((x >>= f) c) := by
  rw [bind_apply]
  cases h : x c with
  | ok b c' =>
    rw [h] at hx
    exact hf b c' hx
  | error e c' =>
    rw [h] at hx
    exact hx

theorem answers_ite {p : Prop} [Decidable p] {r r' : Outcome α} (h : p → Answers ts blocks r)
    (k : ¬ p → Answers ts blocks r') : Answers ts blocks (if p then r else r') := by
  by_cases hp : p
  · rw [if_pos hp]
    exact h hp
  · rw [if_neg hp]
    exact k hp

theorem answers_either {p : Prop} [Decidable p] {x y : Rule α} (h : Answers ts blocks (x c))
    (k : Answers ts blocks (y c)) : Answers ts blocks ((if p then x else y) c) := by
  by_cases hp : p
  · rwa [if_pos hp]
  · rwa [if_neg hp]

theorem answers_problem {f : ParseFault} (hc : c.Sound ts blocks) (hf : f.OfRule) :
    Answers ts blocks (.error (.problem ⟨f, c.next.pos⟩) c : Outcome α) :=
  answers_error hc (.problem (fun _ => hf) hc.next_pos)

theorem answers_expect {kind : TokenKind} {lexeme what : String} {f : Unit → Rule α}
    (hc : c.Sound ts blocks) (hk : kind.OfLine) (hw : what ≠ "end of block")
    (hf : ∀ c', c'.Sound ts blocks → Answers ts blocks (f () c')) :
    Answers ts blocks ((discard (expect kind lexeme what) >>= f) c) := by
  rw [expect_bind]
  exact answers_ite (fun h => hf _ (hc.skip_line ((is_iff.mp h).1 ▸ hk)))
    fun _ => answers_problem hc hw

theorem answers_expectKind {kind : TokenKind} {what : String} {f : Token → Rule α}
    (hc : c.Sound ts blocks) (hk : kind.OfLine) (hw : what ≠ "end of block")
    (hf : ∀ t c', c'.Sound ts blocks → Answers ts blocks (f t c')) :
    Answers ts blocks ((expectKind kind what >>= f) c) := by
  rw [expectKind_bind]
  exact answers_ite (fun h => hf _ _ (hc.skip_line (h ▸ hk))) fun _ => answers_problem hc hw

theorem answers_expression {level : Nat} {f : Node → Rule α} (hc : c.Sound ts blocks)
    (hf : ∀ e c', c'.Sound ts blocks → Answers ts blocks (f e c')) :
    Answers ts blocks ((expression fuel level >>= f) c) :=
  answers_bind (answers_of_inLine hc (expression_inLine _ _ hc.toIn)) hf

/-! ### Statements -/

/-- A list of statements ends at the end, or at that of the block it stands in. -/
theorem statements_ended {context : Context} {topLevel : Bool} {body : List Node}
    (h : statements fuel context topLevel c = .ok body c') :
    c'.next.kind = .stop ∨ c'.next.kind = .dedent ∧ topLevel = false := by
  induction fuel generalizing c body with
  | zero => cases h
  | succ fuel ih =>
    rw [statements_succ, statementsFrom] at h
    split at h
    · next hs =>
      cases h
      exact .inl hs
    · split at h
      · next hd =>
        split at h
        · exact ih h
        · next ht =>
          cases h
          exact .inr ⟨hd, by simpa using ht⟩
      · obtain ⟨s, c₁, -, h⟩ := bind_ok_iff.mp h
        cases s with
        | none => exact ih h
        | some s =>
          obtain ⟨rest, c₂, hrest, h⟩ := bind_ok_iff.mp h
          cases h
          exact ih hrest

/-- A list of statements does not fail with an error: each is recorded. -/
theorem statements_recovered {context : Context} {topLevel : Bool} {e : Halt}
    (h : statements fuel context topLevel c = .error e c') (p : ParseError) : e ≠ .problem p := by
  induction fuel generalizing c with
  | zero =>
    cases h
    rintro ⟨⟩
  | succ fuel ih =>
    rw [statements_succ, statementsFrom] at h
    split at h
    · cases h
    · split at h
      · split at h
        · exact ih h
        · cases h
      · rw [bind_apply, recovering_apply] at h
        split at h
        · next s c₁ hs =>
          cases s with
          | none => exact ih h
          | some s =>
            dsimp only at h
            rw [bind_apply] at h
            split at h
            · cases h
            · next hrest =>
              cases h
              exact ih hrest
        · next hs =>
          split at hs <;> cases hs <;> cases h <;> rintro ⟨⟩

/-- The rules for statements keep the number of open blocks; at the top level there are none. -/
structure Answering (ts : List Token) (fuel : Nat) : Prop where
  statements : ∀ blocks context topLevel c, (∀ n ∈ blocks, topLevel = true ↔ n = 0) →
    c.Sound ts blocks → Answers ts blocks (statements fuel context topLevel c)
  statement : ∀ blocks context c, c.Sound ts blocks →
    Answers ts blocks (statement fuel context c)
  block : ∀ blocks context header c, c.Sound ts blocks →
    Answers ts blocks (block fuel context header c)
  elifs : ∀ blocks context branches c, c.Sound ts blocks →
    Answers ts blocks (elifs fuel context branches c)

variable {context : Context} {p : Position}

theorem ifTail_answers (ih : Answering ts fuel) (hc : c.Sound ts blocks) :
    Answers ts blocks (ifTail fuel context p c) := by
  unfold ifTail
  refine answers_expression hc fun _ c₁ hc₁ => ?_
  refine answers_bind (ih.block _ _ _ _ hc₁) fun _ c₂ hc₂ => ?_
  refine answers_bind (ih.elifs _ _ _ _ hc₂) fun branches c₃ hc₃ => ?_
  rw [accept_bind]
  refine answers_ite (fun h => ?_) fun _ => hc₃
  have hc₄ := hc₃.of_along (along_is h trivial)
  exact answers_bind (ih.block _ _ _ _ hc₄) fun _ _ hc₅ => hc₅

theorem whileTail_answers (ih : Answering ts fuel) (hc : c.Sound ts blocks) :
    Answers ts blocks (whileTail fuel context p c) := by
  unfold whileTail
  refine answers_expression hc fun _ c₁ hc₁ => ?_
  exact answers_bind (ih.block _ _ _ _ hc₁) fun _ _ hc₂ => hc₂

theorem forTail_answers (ih : Answering ts fuel) (hc : c.Sound ts blocks) :
    Answers ts blocks (forTail fuel context p c) := by
  unfold forTail
  refine answers_expectKind hc trivial (by decide) fun name c₁ hc₁ => ?_
  refine answers_expect hc₁ trivial (by decide) fun c₂ hc₂ => ?_
  refine answers_expression hc₂ fun _ c₃ hc₃ => ?_
  exact answers_bind (ih.block _ _ _ _ hc₃) fun _ _ hc₄ => hc₄

theorem defTail_answers (ih : Answering ts fuel) (hc : c.Sound ts blocks) :
    Answers ts blocks (defTail fuel p c) := by
  unfold defTail
  refine answers_expectKind hc trivial (by decide) fun name c₁ hc₁ => ?_
  refine answers_expect hc₁ trivial (by decide) fun c₂ hc₂ => ?_
  have hparams : InLine ts c₂ (parameters ")" "a parameter name" fuel [] c₂) :=
    parameters_inLine ")" (by decide) fuel [] c₂ hc₂.toIn
  refine answers_bind (answers_of_inLine hc₂ hparams) fun params c₃ hc₃ => ?_
  refine answers_expect hc₃ trivial (by decide) fun c₄ hc₄ => ?_
  exact answers_bind (ih.block _ _ _ _ hc₄) fun _ _ hc₅ => hc₅

theorem statement_answers (ih : Answering ts fuel) (blocks : Option Nat) (context : Context)
    (c : Cursor) (hc : c.Sound ts blocks) :
    Answers ts blocks (statement (fuel + 1) context c) := by
  have hsimple := answers_of_endsLine hc (simpleStatement_endsLine fuel hc.toIn)
  rw [statement_succ]
  refine answers_ite (fun hk => ?_) fun _ => answers_ite (fun _ => answers_problem hc trivial)
    fun _ => hsimple
  have hn : c.next.kind.OfLine := hk ▸ trivial
  have hword {x : Rule Node} (hx : ∀ {c}, c.Sound ts blocks → Answers ts blocks (x c)) :
      Answers ts blocks ((discard advance >>= fun _ => x) c) := hx (hc.skip_line hn)
  unfold wordRule
  apply answers_either (hword (ifTail_answers ih))
  apply answers_either (hword (whileTail_answers ih))
  apply answers_either (hword (forTail_answers ih))
  apply answers_either (hword (defTail_answers ih))
  apply answers_either (answers_of_endsLine hc (returnStatement_endsLine _ _ hc.toIn hn))
  apply answers_either (answers_of_endsLine hc (loopStatement_endsLine _ _ hc.toIn hn))
  apply answers_either (answers_of_endsLine hc (loopStatement_endsLine _ _ hc.toIn hn))
  apply answers_either (answers_of_endsLine hc (passStatement_endsLine hc.toIn hn))
  exact answers_either (answers_of_endsLine hc (deleteStatement_endsLine _ hc.toIn hn)) hsimple

theorem recovering_answers {rule : Rule Node} (h : Answers ts blocks (rule c)) :
    Answers ts blocks (recovering rule c) := by
  rw [recovering_apply]
  cases hr : rule c with
  | ok s c' =>
    rw [hr] at h
    exact h
  | error e c' =>
    rw [hr] at h
    cases e with
    | problem e =>
      obtain ⟨hraised, inner, hc, -, hinner⟩ := h
      obtain rfl := hinner e rfl
      cases hraised with
      | problem hf hp => exact hc.after_recovery hf hp
    | fault f => exact h
    | starved => exact h

theorem statements_answers (ih : Answering ts fuel) (blocks : Option Nat) (context : Context)
    (topLevel : Bool) (c : Cursor) (htop : ∀ n ∈ blocks, topLevel = true ↔ n = 0)
    (hc : c.Sound ts blocks) : Answers ts blocks (statements (fuel + 1) context topLevel c) := by
  rw [statements_succ, statementsFrom]
  have hlines := hc.afterNewlines
  refine answers_ite (fun _ => hlines) fun _ => answers_ite (fun hd => answers_ite (fun ht => ?_)
    fun _ => hlines) fun _ => ?_
  · -- outside of blocks no DEDENT is met, so that nothing is known about blocks here
    cases hb : blocks with
    | none =>
      subst hb
      refine ih.statements _ _ _ _ htop ?_
      have hrec := hlines.after_recording (e := ⟨.strayDedent, c.afterNewlines.next.pos⟩)
        (fun h => absurd h Bool.false_ne_true) hlines.next_pos
      exact hrec.onward (List.drop_suffix 1 _) fun n h => absurd h (Option.not_mem_none n)
    | some n =>
      subst hb
      obtain rfl : n = 0 := (htop n rfl).mp ht
      exact absurd hd hlines.not_dedent
  · refine answers_bind (recovering_answers (ih.statement _ _ _ hlines)) fun s c₁ hc₁ => ?_
    cases s with
    | none => exact ih.statements _ _ _ _ htop hc₁
    | some s => exact answers_bind (ih.statements _ _ _ _ htop hc₁) fun _ _ hc₂ => hc₂

/-- What a block asks for is told apart from its end by the first words. -/
theorem header_fault (header : String) :
    "':' after " ++ header ≠ "end of block" ∧
      "end of line after " ++ header ++ ":" ≠ "end of block" ∧
      "an indented block after " ++ header ≠ "end of block" := by
  refine ⟨?_, ?_, ?_⟩ <;>
  · intro h
    simpa using congrArg String.toList h

theorem block_answers (ih : Answering ts fuel) (blocks : Option Nat) (context : Context)
    (header : String) (c : Cursor) (hc : c.Sound ts blocks) :
    Answers ts blocks (block (fuel + 1) context header c) := by
  obtain ⟨hcolon, hline, hindent⟩ := header_fault header
  rw [block_succ]
  refine answers_expect hc trivial hcolon fun c₁ hc₁ => ?_
  rw [expectKind_discard_bind]
  refine answers_ite (fun hk => ?_) fun _ => answers_problem hc₁ hline
  have hc₂ := hc₁.skip_newline hk
  rw [expectKind_discard_bind]
  refine answers_ite (fun hk => ?_) fun _ => answers_problem hc₂ hindent
  have hc₃ := hc₂.skip_indent hk
  have htop : ∀ m ∈ blocks.map (· + 1), false = true ↔ m = 0 := by
    intro m hm
    obtain ⟨n, -, rfl⟩ := Option.map_eq_some_iff.mp hm
    simp
  have hbody := ih.statements _ context false _ htop hc₃
  rw [bind_apply]
  cases hs : statements fuel context false ((c₁.skip 1).skip 1) with
  | ok body c₄ =>
    rw [hs] at hbody
    dsimp only
    rw [expectKind_discard_bind]
    refine answers_ite (fun hk => hbody.skip_dedent hk) fun hk => ?_
    cases blocks with
    | none => exact answers_error hbody (.problem nofun hbody.next_pos)
    | some n =>
      rcases statements_ended hs with hstop | ⟨hd, -⟩
      · exact absurd hstop hbody.not_stop
      · exact absurd hd hk
  | error e c₄ =>
    rw [hs] at hbody
    obtain ⟨hraised, inner, hc₄, hsome, -⟩ := hbody
    refine ⟨hraised.mono fun f hf hb => hf (by simpa using hb), inner, hc₄, by simpa using hsome,
      ?_⟩
    exact fun p hp => absurd hp (statements_recovered hs p)

theorem elifs_answers (ih : Answering ts fuel) (blocks : Option Nat) (context : Context)
    (branches : List (Node × List Node)) (c : Cursor) (hc : c.Sound ts blocks) :
    Answers ts blocks (elifs (fuel + 1) context branches c) := by
  rw [elifs_succ]
  refine answers_ite (fun h => ?_) fun _ => hc
  refine answers_expression (hc.of_along (along_is h trivial)) fun _ c₁ hc₁ => ?_
  exact answers_bind (ih.block _ _ _ _ hc₁) fun _ _ hc₂ => ih.elifs _ _ _ _ hc₂

theorem rules_answer (ts : List Token) (fuel : Nat) : Answering ts fuel := by
  induction fuel with
  | zero => constructor <;> intros <;> exact answers_error (by assumption) .starved
  | succ fuel ih =>
    exact ⟨statements_answers ih, statement_answers ih, block_answers ih, elifs_answers ih⟩

theorem tokenize_inside {source : String} (h : tokenize source = .ok ts) :
    Inside 0 (Cursor.ofTokens ts).rest := by
  obtain ⟨body, stop, rfl, hstop, hnested⟩ := Lexer.tokenize_nested h
  rw [ofTokens_concat hstop]
  exact ⟨true, hnested⟩

/-- The start of a list; if blocks are to be known, they have to be nested in it. -/
theorem ofTokens_sound (h : ts ≠ []) (hin : ∀ n ∈ blocks, Inside n (Cursor.ofTokens ts).rest) :
    (Cursor.ofTokens ts).Sound ts blocks := by
  have hlast : ts.getLast? = some (ts.getLast h) := List.getLast?_eq_some_getLast h
  have hmem : ts.getLast h ∈ ts := List.getLast_mem h
  have hstop : ∃ t ∈ ts, (Cursor.ofTokens ts).stop.pos = t.pos := by
    refine ⟨_, hmem, ?_⟩
    unfold Cursor.ofTokens
    rw [hlast]
    dsimp only
    split <;> rfl
  have herrors : (Cursor.ofTokens ts).errors = [] := by
    unfold Cursor.ofTokens
    rw [hlast]
    dsimp only
    split <;> rfl
  refine ⟨⟨(ofTokens_split ts).1, hstop, List.suffix_refl _⟩, ?_, hin⟩
  rw [herrors]
  exact List.forall_mem_nil _

/-- The errors recorded while a list is parsed in some context, also when parsing ends at a
fault. -/
def recordedIn (context : Context) (ts : List Token) : List ParseError :=
  match statements (fuelFor ts) context true (Cursor.ofTokens ts) with
  | .ok _ c => c.errors
  | .error _ c => c.errors

/-- The errors recorded while a list is parsed as a program. -/
def recorded (ts : List Token) : List ParseError := recordedIn ⟨false, false⟩ ts

end Parser

end Offside
