import Offside.Proofs.Parser.Ending
import Offside.Proofs.Parser.Forward
import Offside.Proofs.Parser.Nesting

/-!
The parser makes progress on every list of tokens, whatever their order. A turn of the loop over
statements leaves the loop or takes a token, whether its statement is read or is passed over; no
token behind the first END is reached, so that what is read does not depend on those tokens; hence
parsing ends, with a program or with errors.
-/

namespace Offside

/-- A number that its conversion takes, or no number. -/
def Token.Convertible (t : Token) : Prop :=
  (t.kind = .integer → (Number.readInteger? t.lexeme.toList).isSome = true) ∧
    (t.kind = .float → (Number.readFloat? t.lexeme.toList).isSome = true)

namespace Parser

variable {c c' c₁ c₂ : Cursor} {ts : List Token} {fuel n : Nat} {context : Context} {topLevel : Bool}

theorem atom_convertible {t : Token} (h : t.Convertible) (f : Fault) :
    atom? t ≠ some (.error f) := by
  intro ha
  unfold atom? at ha
  split at ha
  · next hk =>
    obtain ⟨i, hi⟩ := Option.isSome_iff_exists.mp (h.1 hk)
    rw [hi] at ha
    cases ha
  · next hk =>
    obtain ⟨x, hx⟩ := Option.isSome_iff_exists.mp (h.2 hk)
    rw [hx] at ha
    cases ha
  · cases ha
  · cases ha
  · split_ifs at ha <;> cases ha
  · cases ha

/-! ### Turns of the loop -/

/-- What a turn of the loop over statements comes to: the end of the loop, a statement, or what was
recorded as an error and passed over. -/
inductive Turn where
  | leaving
  | statement (s : Node)
  | failure

/-- One turn of the loop over statements, which is made of such turns (`statements_eq_turns`). -/
def turn (fuel : Nat) (context : Context) (topLevel : Bool) : Rule Turn := do
  skipNewlines
  let t ← peek
  if t.kind = .stop then return .leaving
  else if t.kind = .dedent then
    if !topLevel then return .leaving
    record ⟨.strayDedent, t.pos⟩
    discard advance
    return .failure
  else
    match ← recovering (statement fuel context) with
    | some s => return .statement s
    | none => return .failure

/-- A turn after the ends of lines. -/
def turnFrom (fuel : Nat) (context : Context) (topLevel : Bool) (c : Cursor) : Outcome Turn :=
  if c.next.kind = .stop then .ok .leaving c
  else if c.next.kind = .dedent then
    if topLevel then .ok .failure ((c.recording ⟨.strayDedent, c.next.pos⟩).skip 1)
    else .ok .leaving c
  else (recovering (statement fuel context) >>= fun s => match s with
    | some s => pure (.statement s)
    | none => pure .failure) c

theorem turn_apply (fuel : Nat) (context : Context) (topLevel : Bool) (c : Cursor) :
    turn fuel context topLevel c = turnFrom fuel context topLevel c.afterNewlines := by
  rw [turn, skipNewlines_bind, peek_bind, turnFrom]
  split
  · rfl
  · split
    · cases topLevel <;> rfl
    · rfl

/-- The loop is its turns, one after another. -/
theorem statements_eq_turns (fuel : Nat) (context : Context) (topLevel : Bool) (c : Cursor) :
    statements (fuel + 1) context topLevel c =
      (turn fuel context topLevel >>= fun t => match t with
        | .leaving => pure []
        | .statement s => statements fuel context topLevel >>= fun rest => pure (s :: rest)
        | .failure => statements fuel context topLevel) c := by
  rw [statements_succ, statementsFrom]
  conv_rhs => rw [bind_apply, turn_apply, turnFrom]
  split
  · rfl
  · split
    · split <;> rfl
    · rw [bind_apply, bind_apply]
      rcases recovering (statement fuel context) c.afterNewlines with ⟨_ | s, c₁⟩ | ⟨e, c₁⟩ <;> rfl

/-- A turn that goes on ends at a later token. -/
def TakesTurn (fuel : Nat) (context : Context) (topLevel : Bool) (c c' : Cursor) : Prop :=
  ∃ t, turn fuel context topLevel c = .ok t c' ∧ t ≠ .leaving ∧ Forth c c' ∧
    c'.rest.length < c.rest.length

/-- A statement is read, or is passed over, and takes a token in either case. -/
theorem recovering_progress (hs : c.stop.kind = .stop) (hn : c.next.kind ≠ .stop)
    (hd : c.next.kind ≠ .dedent) (hf : 4 * c.rest.length + 4 ≤ fuel) {s : Option Node}
    (h : recovering (statement fuel context) c = .ok s c') :
    Forth c c' ∧ c'.rest.length < c.rest.length := by
  have hfed := recovering_fed hs hn hd ((statements_sufficient fuel).statement context c hs hf)
  have hforth := recovering_advances ((rules_advance fuel).statement context c hs)
  rw [h] at hfed hforth
  exact ⟨hforth, hfed.length⟩

/-- With enough fuel and numbers that can be converted, passing over a statement does not fail. -/
theorem recovering_succeeds (context : Context) (hts : ∀ t ∈ ts, t.Convertible) (hc : c.Sound ts none)
    (hn : c.next.kind ≠ .stop) (hd : c.next.kind ≠ .dedent)
    (hf : 4 * c.rest.length + 4 ≤ fuel) :
    ∃ s c', recovering (statement fuel context) c = .ok s c' := by
  have hfed := recovering_fed hc.kind hn hd
    ((statements_sufficient fuel).statement context c hc.kind hf)
  have hans := recovering_answers ((rules_answer ts fuel).statement none context c hc)
  cases h : recovering (statement fuel context) c with
  | ok s c' => exact ⟨s, c', rfl⟩
  | error e c' =>
    rw [h] at hfed hans
    cases hans.1 with
    | problem _ _ =>
      rw [recovering_apply] at h
      split at h <;> cases h
    | fault ht ha => exact absurd ha (atom_convertible (hts _ ht) _)
    | starved => exact absurd rfl hfed.1

/-- A turn leaves the loop at the end of its statements, or takes a token. -/
theorem turn_progresses (context : Context) (topLevel : Bool) (hts : ∀ t ∈ ts, t.Convertible)
    (hc : c.Sound ts none) (hf : 4 * c.rest.length + 4 ≤ fuel) :
    turn fuel context topLevel c = .ok .leaving c.afterNewlines ∧
        (c.afterNewlines.next.kind = .stop ∨
          c.afterNewlines.next.kind = .dedent ∧ topLevel = false) ∨
      ∃ c', TakesTurn fuel context topLevel c c' := by
  have hlines := forth_afterNewlines c
  have hlen := hlines.length_le
  have hc₁ := hc.afterNewlines
  rw [turn_apply]
  unfold TakesTurn
  simp only [turn_apply]
  generalize c.afterNewlines = c₁ at hlines hlen hc₁ ⊢
  unfold turnFrom
  split_ifs with hstop hdedent htop
  · exact .inl ⟨rfl, .inl hstop⟩
  · have hforth := forth_stray hc₁.kind hdedent ⟨.strayDedent, c₁.next.pos⟩
    have hskip : (c₁.skip 1).rest.length + 1 = c₁.rest.length := skip_length hc₁.kind hstop
    refine .inr ⟨_, .failure, rfl, nofun, hlines.trans hforth, ?_⟩
    exact Nat.lt_of_lt_of_le (Nat.lt_of_succ_le hskip.le) hlen
  · exact .inl ⟨rfl, .inr ⟨hdedent, by simpa using htop⟩⟩
  · have hfuel : 4 * c₁.rest.length + 4 ≤ fuel := by omega
    obtain ⟨s, c', h⟩ := recovering_succeeds context hts hc₁ hstop hdedent hfuel
    obtain ⟨hforth, hlt⟩ := recovering_progress hc₁.kind hstop hdedent hfuel h
    rw [bind_ok h]
    refine .inr ⟨c', ?_⟩
    cases s with
    | none => exact ⟨.failure, rfl, nofun, hlines.trans hforth, hlt.trans_le hlen⟩
    | some s => exact ⟨.statement s, rfl, nofun, hlines.trans hforth, hlt.trans_le hlen⟩

/-! ### Calls -/

/-- The fuel that a call has. -/
def Call.allowance : Call → Nat
  | .statements fuel _ _ => fuel
  | .statement fuel _ => fuel
  | .block fuel _ _ => fuel
  | .elifs fuel _ _ => fuel

/-- The fuel that a call needs where no token is left. -/
def Call.least : Call → Nat
  | .statements .. => 5
  | .statement .. => 4
  | .block .. => 1
  | .elifs .. => 1

attribute [grind =] Call.allowance Call.least

/-- A call with enough fuel, short of the first END; its errors stand at tokens of `us`. -/
structure Reached (us ts : List Token) (call : Call) (c : Cursor) : Prop where
  sound : c.Sound us none
  forth : Forth (Cursor.ofTokens ts) c
  enough : 4 * c.rest.length + call.least ≤ call.allowance

variable {us : List Token} {call call' : Call}

/-- From one call to another that is made `k` tokens later at least. -/
theorem Reached.onward (h : Reached us ts call c) (hc : c'.Sound us none) (hforth : Forth c c')
    (k : Nat) (hlen : c'.rest.length + k ≤ c.rest.length)
    (hfuel : call.allowance + call'.least ≤ call'.allowance + call.least + 4 * k) :
    Reached us ts call' c' := by
  have := h.enough
  exact ⟨hc, h.forth.trans hforth, by omega⟩

/-- Errors stand at tokens of the list, or at the END of an empty one. -/
theorem start_sound (hts : ∀ t ∈ ts, t.Convertible) :
    ∃ us, (Cursor.ofTokens ts).Sound us none ∧ ∀ t ∈ us, t.Convertible := by
  by_cases hne : ts = []
  · subst hne
    have hstop : (Cursor.ofTokens []).Sound [⟨.stop, "", .start⟩] none :=
      ofTokens_sound (List.cons_ne_nil (Token.mk .stop "" .start) []) nofun
    exact ⟨_, hstop, by simp [Token.Convertible]⟩
  · exact ⟨ts, ofTokens_sound hne nofun, hts⟩

/-- What is left after a keyword and an expression. -/
theorem expression_reached {lexeme : String} {e : Node} (hc : c.Sound us none)
    (hk : c.next.is .keyword lexeme = true)
    (h : expression fuel loosest (c.skip 1) = .ok e c₁) :
    c₁.Sound us none ∧ Forth c c₁ ∧ c₁.rest.length + 1 ≤ c.rest.length := by
  have hword := hc.of_along (along_is hk trivial)
  have hline := expression_inLine fuel loosest hword.toIn
  rw [h] at hline
  have hlen := skip_length hc.kind (by simp [(is_iff.mp hk).1])
  have hforth := forth_along hline
  have hle := hforth.length_le
  exact ⟨hword.of_along hline, (forth_is hc.kind hk nofun).trans hforth, by omega⟩

/-- What is left after a block. -/
theorem block_reached {header : String} {body : List Node} (hc : c.Sound us none)
    (h : block fuel context header c = .ok body c') : c'.Sound us none ∧ Forth c c' := by
  have hforth := (rules_advance fuel).block context header c hc.kind
  rw [h] at hforth
  exact ⟨sound_of_ok ((rules_answer us fuel).block none context header c hc) h, hforth⟩

/-- What is left after a keyword, an expression and a block. -/
theorem branch_reached {lexeme header : String} {e : Node} {body : List Node}
    (hc : c.Sound us none) (hk : c.next.is .keyword lexeme = true)
    (he : expression fuel loosest (c.skip 1) = .ok e c₁)
    (hb : block fuel context header c₁ = .ok body c₂) :
    c₂.Sound us none ∧ Forth c c₂ ∧ c₂.rest.length + 1 ≤ c.rest.length := by
  obtain ⟨hc₁, hforth, hlen⟩ := expression_reached hc hk he
  obtain ⟨hc₂, hforth'⟩ := block_reached hc₁ hb
  have hle := hforth'.length_le
  exact ⟨hc₂, hforth.trans hforth', by omega⟩

theorem along_onward {k : Nat} (h : (c.skip k).next.kind.OfLine) :
    Along (c.skip k) (c.skip (k + 1)) := by
  rw [← Cursor.skip_skip]
  exact along_skip h

theorem forth_onward {k : Nat} (hs : c.stop.kind = .stop) (h : (c.skip k).next.kind ≠ .stop) :
    Forth (c.skip k) (c.skip (k + 1)) := by
  rw [← Cursor.skip_skip]
  exact forth_skip hs h

/-- A keyword, a name and a mark, with which the head of a loop and that of a function begin. -/
theorem along_head {keyword lexeme : String} {kind : TokenKind}
    (hk : c.next.is .keyword keyword = true) (hn : (c.skip 1).next.kind = .identifier)
    (hm : (c.skip 2).next.is kind lexeme = true) (hline : kind.OfLine) : Along c (c.skip 3) := by
  have hname : Along (c.skip 1) (c.skip 2) := along_onward (hn ▸ trivial)
  have hmark : Along (c.skip 2) (c.skip 3) := along_onward ((is_iff.mp hm).1 ▸ hline)
  exact (along_is hk trivial).trans (hname.trans hmark)

/-- What is left after the head of a `for` is on its line. -/
theorem for_along {e : Node} (hc : c.Sound us none) (hk : c.next.is .keyword "for" = true)
    (hn : (c.skip 1).next.kind = .identifier) (hin : (c.skip 2).next.is .keyword "in" = true)
    (he : expression fuel loosest (c.skip 3) = .ok e c₁) : Along c c₁ := by
  have halong := along_head hk hn hin trivial
  have hline := expression_inLine fuel loosest (hc.of_along halong).toIn
  rw [he] at hline
  exact halong.trans hline

/-- What is left after the head of a function is on its line. -/
theorem def_along {params : List String} (hc : c.Sound us none)
    (hk : c.next.is .keyword "def" = true) (hn : (c.skip 1).next.kind = .identifier)
    (ho : (c.skip 2).next.is .delimiter "(" = true)
    (hp : parameters ")" "a parameter name" fuel [] (c.skip 3) = .ok params c₁)
    (hclose : c₁.next.is .delimiter ")" = true) : Along c (c₁.skip 1) := by
  have halong := along_head hk hn ho trivial
  have hparams : InLine us (c.skip 3) (parameters ")" "a parameter name" fuel [] (c.skip 3)) :=
    parameters_inLine ")" (by decide) fuel [] _ (hc.of_along halong).toIn
  rw [hp] at hparams
  exact (halong.trans hparams).trans (along_is hclose trivial)

/-- The colon, the end of the line and the indentation before the body of a block. -/
theorem body_reached (hc : c.Sound us none) (hcolon : c.next.is .delimiter ":" = true)
    (hline : (c.skip 1).next.kind = .newline) (hindent : (c.skip 2).next.kind = .indent) :
    (c.skip 3).Sound us none ∧ Forth c (c.skip 3) ∧
      (c.skip 3).rest.length + 2 ≤ c.rest.length := by
  have hs := hc.kind
  have hline' : Forth (c.skip 1) (c.skip 2) := forth_onward hs (by simp [hline])
  have hindent' : Forth (c.skip 2) (c.skip 3) := forth_onward hs (by simp [hindent])
  have h₁ := skip_length hs (by simp [(is_iff.mp hcolon).1])
  have h₂ : (c.skip 2).rest.length + 1 = (c.skip 1).rest.length := by
    simpa only [Cursor.skip_skip] using skip_length (c := c.skip 1) hs (by simp [hline])
  have hle := hindent'.length_le
  exact ⟨hc.onward (List.drop_suffix 3 _) nofun,
    (forth_is hs hcolon nofun).trans (hline'.trans hindent'), by omega⟩

/-- Every rule for statements is called short of the first END, and with enough fuel. -/
theorem calls_reached (hstart : (Cursor.ofTokens ts).Sound us none) (h : Calls ts call n c) :
    Reached us ts call c := by
  induction h with
  | start =>
    obtain ⟨-, tail, htail, -⟩ := ofTokens_split ts
    have hlen := congrArg List.length htail
    rw [List.length_append] at hlen
    refine ⟨hstart, .refl _, ?_⟩
    simp only [Call.least, Call.allowance, fuelFor]
    omega
  | @statement _ _ _ _ c _ _ _ ih =>
    have hforth := forth_afterNewlines c
    exact ih.onward ih.sound.afterNewlines hforth 0 hforth.length_le (by grind)
  | @next fuel _ context topLevel c c' s _ hstop hdedent hs ih =>
    have hlines := forth_afterNewlines c
    have hc := ih.sound.afterNewlines
    have hfuel : 4 * c.afterNewlines.rest.length + 4 ≤ fuel := by
      have := ih.enough
      have := hlines.length_le
      grind
    obtain ⟨hforth, hlt⟩ := recovering_progress hc.kind hstop hdedent hfuel hs
    have hc' := sound_of_ok (recovering_answers ((rules_answer us fuel).statement none _ _ hc)) hs
    exact ih.onward hc' (hlines.trans hforth) 1 (hlt.trans_le hlines.length_le) (by grind)
  | @stray fuel _ context c _ hd ih =>
    have hlines := forth_afterNewlines c
    have hc := ih.sound.afterNewlines
    have hforth := forth_stray hc.kind hd ⟨.strayDedent, c.afterNewlines.next.pos⟩
    have hskip := skip_length hc.kind (by simp [hd])
    have hrec := hc.after_recording (e := ⟨.strayDedent, c.afterNewlines.next.pos⟩) nofun hc.next_pos
    exact ih.onward (hrec.onward (List.drop_suffix 1 _) nofun) (hlines.trans hforth) 1
      (hskip.le.trans hlines.length_le) (by grind)
  | ifBlock _ hk he ih | elifBlock _ hk he ih | whileBlock _ hk he ih =>
    obtain ⟨hc, hforth, hlen⟩ := expression_reached ih.sound hk he
    exact ih.onward hc hforth 1 hlen (by grind)
  | elifs _ hk he hb ih | elifNext _ hk he hb ih =>
    obtain ⟨hc, hforth, hlen⟩ := branch_reached ih.sound hk he hb
    exact ih.onward hc hforth 1 hlen (by grind)
  | @elseBlock fuel _ context _ _ c₂ c₃ condition body _ _ hk he hb hes hk' ih =>
    obtain ⟨hc, hforth, -⟩ := branch_reached ih.sound hk he hb
    have hforth' := (rules_advance fuel).elifs context [(condition, body)] c₂ hc.kind
    rw [hes] at hforth'
    have hc' := sound_of_ok ((rules_answer us fuel).elifs none context _ _ hc) hes
    have hall := hforth.trans (Forth.trans hforth' (forth_is hc'.kind hk' nofun))
    exact ih.onward (hc'.of_along (along_is hk' trivial)) hall 0 hall.length_le (by grind)
  | forBlock _ hk hn hin he ih =>
    have halong := for_along ih.sound hk hn hin he
    have hforth := forth_along halong
    exact ih.onward (ih.sound.of_along halong) hforth 0 hforth.length_le (by grind)
  | defBlock _ hk hn ho hp hclose ih =>
    have halong := def_along ih.sound hk hn ho hp hclose
    have hforth := forth_along halong
    exact ih.onward (ih.sound.of_along halong) hforth 0 hforth.length_le (by grind)
  | body _ hcolon hline hindent ih =>
    obtain ⟨hc, hforth, hlen⟩ := body_reached ih.sound hcolon hline hindent
    exact ih.onward hc hforth 2 hlen (by grind)

/-- What a call gives, or where it fails, is further on and short of the first END. -/
def Call.Onward (c : Cursor) : Call → Prop
  | .statements fuel context topLevel => Advances c (Parser.statements fuel context topLevel c)
  | .statement fuel context => Advances c (Parser.statement fuel context c)
  | .block fuel context header => Advances c (Parser.block fuel context header c)
  | .elifs fuel context branches => Advances c (Parser.elifs fuel context branches c)

theorem call_onward (hs : c.stop.kind = .stop) (call : Call) : call.Onward c := by
  cases call with
  | statements fuel context topLevel => exact (rules_advance fuel).statements context topLevel c hs
  | statement fuel context => exact (rules_advance fuel).statement context c hs
  | block fuel context header => exact (rules_advance fuel).block context header c hs
  | elifs fuel context branches => exact (rules_advance fuel).elifs context branches c hs

/-- A turn that goes on is followed by the call for the statements that are left. -/
theorem turn_called (h : Calls ts (.statements (fuel + 1) context topLevel) n c) {t : Turn}
    (ht : turn fuel context topLevel c = .ok t c') (hgo : t ≠ .leaving) :
    Calls ts (.statements fuel context topLevel) n c' := by
  rw [turn_apply, turnFrom] at ht
  split_ifs at ht with hstop hdedent htop
  · cases ht
    exact absurd rfl hgo
  · cases ht
    subst htop
    exact .stray h hdedent
  · cases ht
    exact absurd rfl hgo
  · obtain ⟨s, c₁, hs, ht⟩ := bind_ok_iff.mp ht
    have hnext := Calls.next h hstop hdedent hs
    cases s <;> cases ht <;> exact hnext

/-! ### The whole list -/

/-- Fuel beyond what the tokens that are left need changes nothing. -/
theorem statements_settled (hs : c.stop.kind = .stop) {more : Nat}
    (hf : 4 * c.rest.length + 5 ≤ fuel) (hmore : fuel ≤ more) :
    statements more context topLevel c = statements fuel context topLevel c := by
  have hfed := (statements_sufficient fuel).statements context topLevel c hs hf
  rcases refines_le (fun m c => (statements_monotone m).statements context topLevel c) hmore c
    with h | ⟨c', h⟩
  · exact h.symm
  · rw [h] at hfed
    exact absurd rfl hfed.1

theorem fuelFor_enough (ts : List Token) :
    4 * (Cursor.ofTokens ts).rest.length + 5 ≤ fuelFor ts := by
  obtain ⟨-, tail, htail, -⟩ := ofTokens_split ts
  have hlen := congrArg List.length htail
  rw [List.length_append] at hlen
  unfold fuelFor
  omega

/-- The loop at the top level ends in front of an END. -/
theorem statements_reach_end (hts : ∀ t ∈ ts, t.Convertible) :
    ∃ body c, statements (fuelFor ts) ⟨false, false⟩ true (Cursor.ofTokens ts) = .ok body c ∧
      c.next.kind = .stop ∧ Forth (Cursor.ofTokens ts) c := by
  obtain ⟨us, hsound, hus⟩ := start_sound hts
  have hfed := (statements_sufficient (fuelFor ts)).statements ⟨false, false⟩ true _ hsound.kind
    (fuelFor_enough ts)
  have hans := (rules_answer us (fuelFor ts)).statements none ⟨false, false⟩ true _ nofun hsound
  have hforth := (rules_advance (fuelFor ts)).statements ⟨false, false⟩ true _ hsound.kind
  cases h : statements (fuelFor ts) ⟨false, false⟩ true (Cursor.ofTokens ts) with
  | ok body c =>
    rw [h] at hforth
    exact ⟨body, c, rfl, by simpa using statements_ended h, hforth⟩
  | error e c =>
    rw [h] at hfed hans
    cases hans.1 with
    | problem _ _ => exact absurd rfl (statements_recovered h _)
    | fault ht ha => exact absurd ha (atom_convertible (hus _ ht) _)
    | starved => exact absurd rfl hfed.1

theorem ofTokens_open {u : List Token} {last : Token} (h : last.kind ≠ .stop) :
    Cursor.ofTokens (u ++ [last]) = ⟨u ++ [last], ⟨.stop, "", last.pos⟩, []⟩ := by
  simp [Cursor.ofTokens, h]

theorem ofTokens_outlasts (pre : List Token) {post : List Token} {e : Token} (he : e.kind = .stop)
    (hpost : post ≠ []) :
    ∃ more stop, Outlasts more stop ⟨pre, e, []⟩ (Cursor.ofTokens (pre ++ e :: post)) := by
  obtain ⟨post, last, rfl⟩ := List.eq_nil_or_concat' post |>.resolve_left hpost
  have hsplit : pre ++ e :: (post ++ [last]) = (pre ++ e :: post) ++ [last] := by simp
  rw [hsplit]
  by_cases hlast : last.kind = .stop
  · rw [ofTokens_concat hlast]
    exact ⟨post, last, he, rfl, rfl, rfl⟩
  · rw [ofTokens_open hlast]
    exact ⟨post ++ [last], ⟨.stop, "", last.pos⟩, he, hsplit.symm, rfl, rfl⟩

/-- The tokens behind an END make no difference. -/
theorem parse_before_end (pre post : List Token) {e : Token} (he : e.kind = .stop) :
    parse (pre ++ e :: post) = parse (pre ++ [e]) := by
  by_cases hpost : post = []
  · rw [hpost]
  obtain ⟨more, stop, hout⟩ := ofTokens_outlasts pre he hpost
  have hfuel : fuelFor (pre ++ [e]) ≤ fuelFor (pre ++ e :: post) := by
    simp only [fuelFor, List.length_append, List.length_cons, List.length_nil]
    omega
  have hecho := (statements_echoing more stop (fuelFor (pre ++ e :: post))).statements
    ⟨false, false⟩ true _ _ hout
  rw [← ofTokens_concat he, statements_settled (ofTokens_split _).1 (fuelFor_enough _) hfuel]
    at hecho
  rw [parse_eq, parse_eq]
  unfold verdict
  generalize statements (fuelFor (pre ++ [e])) _ _ _ = r at hecho ⊢
  generalize statements (fuelFor (pre ++ e :: post)) _ _ _ = r' at hecho ⊢
  rcases r with ⟨body, c⟩ | ⟨x, c⟩ <;> rcases r' with ⟨body', c'⟩ | ⟨x', c'⟩
  · obtain ⟨rfl, hc⟩ := hecho
    simp only [hc.errors]
  · exact hecho.elim
  · exact hecho.elim
  · obtain ⟨rfl, hc⟩ := hecho
    cases x' <;> simp only [hc.errors]

/-- Progress on a list of tokens. -/
structure Progresses (ts : List Token) : Prop where
  /-- Parsing ends at an END, with a program or with errors, whatever more fuel it has. -/
  ends : ∃ body c, (∀ fuel ≥ fuelFor ts,
      statements fuel ⟨false, false⟩ true (Cursor.ofTokens ts) = .ok body c) ∧
    c.next.kind = .stop ∧ Forth (Cursor.ofTokens ts) c ∧
    parse ts = if c.errors = [] then .ok (.program Position.start body)
      else .error (.parse c.errors)
  /-- A turn of any loop over statements leaves the loop, or takes a token and is followed by a
  turn that has the fuel it needs. -/
  turns : ∀ {fuel context topLevel n c}, Calls ts (.statements fuel context topLevel) n c →
    ∃ less, fuel = less + 1 ∧
      (turn less context topLevel c = .ok .leaving c.afterNewlines ∧
          (c.afterNewlines.next.kind = .stop ∨
            c.afterNewlines.next.kind = .dedent ∧ topLevel = false) ∨
        ∃ c', TakesTurn less context topLevel c c' ∧
          Calls ts (.statements less context topLevel) n c')
  /-- Every rule for statements is called in the list and before its first END, and no rule goes
  back or goes past an END, whether it fails or not. -/
  stays : ∀ {call n c}, Calls ts call n c → Forth (Cursor.ofTokens ts) c ∧ call.Onward c
  /-- What stands behind an END makes no difference. -/
  behind : ∀ {pre post e}, ts = pre ++ e :: post → e.kind = .stop →
    ∀ other, parse (pre ++ e :: other) = parse ts

/-- The parser makes progress on every list of tokens whose numbers can be converted. -/
theorem parsing_progresses (hts : ∀ t ∈ ts, t.Convertible) : Progresses ts := by
  obtain ⟨us, hsound, hus⟩ := start_sound hts
  refine ⟨?_, fun {fuel context topLevel n c} hc => ?_, fun {call n c} hc => ?_, ?_⟩
  · obtain ⟨body, c, h, hstop, hforth⟩ := statements_reach_end hts
    refine ⟨body, c, fun fuel hfuel => ?_, hstop, hforth, ?_⟩
    · rw [statements_settled hsound.kind (fuelFor_enough ts) hfuel, h]
    · simp only [parse_eq, verdict, h, List.isEmpty_iff]
  · have hreached := calls_reached hsound hc
    have henough := hreached.enough
    simp only [Call.least, Call.allowance] at henough
    obtain ⟨less, rfl⟩ : ∃ less, fuel = less + 1 := ⟨fuel - 1, by omega⟩
    refine ⟨less, rfl, ?_⟩
    rcases turn_progresses context topLevel hus hreached.sound
      (by omega : 4 * c.rest.length + 4 ≤ less) with h | ⟨c', h⟩
    · exact .inl h
    · obtain ⟨t, ht, hgo, -⟩ := id h
      exact .inr ⟨c', h, turn_called hc ht hgo⟩
  · have hreached := calls_reached hsound hc
    exact ⟨hreached.forth, call_onward hreached.sound.kind call⟩
  · rintro pre post e rfl he other
    rw [parse_before_end pre other he, parse_before_end pre post he]

/-- A list that no source gives: a block that is closed before it is opened, and an END inside. -/
theorem misshapen_list_progresses :
    (∀ t ∈ [⟨.dedent, "", ⟨1, 1⟩⟩, ⟨.indent, "", ⟨2, 1⟩⟩, ⟨.integer, "7", ⟨2, 3⟩⟩,
        ⟨.stop, "", ⟨3, 1⟩⟩, ⟨.dedent, "", ⟨3, 1⟩⟩, ⟨.newline, "", ⟨4, 1⟩⟩],
      Token.Convertible t) ∧
    Progresses [⟨.dedent, "", ⟨1, 1⟩⟩, ⟨.indent, "", ⟨2, 1⟩⟩, ⟨.integer, "7", ⟨2, 3⟩⟩,
      ⟨.stop, "", ⟨3, 1⟩⟩, ⟨.dedent, "", ⟨3, 1⟩⟩, ⟨.newline, "", ⟨4, 1⟩⟩] := by
  have hts : ∀ t ∈ [⟨.dedent, "", ⟨1, 1⟩⟩, ⟨.indent, "", ⟨2, 1⟩⟩, ⟨.integer, "7", ⟨2, 3⟩⟩,
      ⟨.stop, "", ⟨3, 1⟩⟩, ⟨.dedent, "", ⟨3, 1⟩⟩, ⟨.newline, "", ⟨4, 1⟩⟩],
      Token.Convertible t := by
    unfold Token.Convertible
    decide +kernel
  exact ⟨hts, parsing_progresses hts⟩

end Parser

end Offside
