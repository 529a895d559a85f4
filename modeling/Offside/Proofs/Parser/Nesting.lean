import Offside.Proofs.Parser.Recovery

/-!
Lexer, parser and recovery agree on blocks. While the tokens of a source are parsed, the INDENTs
less the DEDENTs that are taken are the blocks in progress, wherever a rule for statements is
called; so the end of a block is never missing, and no DEDENT is stray, whatever other errors there
are.
-/

namespace Offside

namespace Parser

/-- A call of a rule for statements. -/
inductive Call where
  | statements (fuel : Nat) (context : Context) (topLevel : Bool)
  | statement (fuel : Nat) (context : Context)
  | block (fuel : Nat) (context : Context) (header : String)
  | elifs (fuel : Nat) (context : Context) (branches : List (Node × List Node))

/-- The calls that are made while a list is parsed, with the number of blocks entered and not left,
and the place. One constructor stands for each place in the rules that calls another rule; calls
between the two that are over by then are given by their outcomes. -/
inductive Calls (ts : List Token) : Call → Nat → Cursor → Prop where
  | start : Calls ts (.statements (fuelFor ts) ⟨false, false⟩ true) 0 (Cursor.ofTokens ts)
  | statement {fuel n : Nat} {context : Context} {topLevel : Bool} {c : Cursor} :
      Calls ts (.statements (fuel + 1) context topLevel) n c →
      c.afterNewlines.next.kind ≠ .stop → c.afterNewlines.next.kind ≠ .dedent →
      Calls ts (.statement fuel context) n c.afterNewlines
  | next {fuel n : Nat} {context : Context} {topLevel : Bool} {c c' : Cursor} {s : Option Node} :
      Calls ts (.statements (fuel + 1) context topLevel) n c →
      c.afterNewlines.next.kind ≠ .stop → c.afterNewlines.next.kind ≠ .dedent →
      recovering (Parser.statement fuel context) c.afterNewlines = .ok s c' →
      Calls ts (.statements fuel context topLevel) n c'
  | stray {fuel n : Nat} {context : Context} {c : Cursor} :
      Calls ts (.statements (fuel + 1) context true) n c → c.afterNewlines.next.kind = .dedent →
      Calls ts (.statements fuel context true) n
        ((c.afterNewlines.recording ⟨.strayDedent, c.afterNewlines.next.pos⟩).skip 1)
  | ifBlock {fuel n : Nat} {context : Context} {c c₁ : Cursor} {condition : Node} :
      Calls ts (.statement (fuel + 1) context) n c → c.next.is .keyword "if" = true →
      expression fuel loosest (c.skip 1) = .ok condition c₁ →
      Calls ts (.block fuel context "'if' condition") n c₁
  | elifs {fuel n : Nat} {context : Context} {c c₁ c₂ : Cursor} {condition : Node}
      {body : List Node} : Calls ts (.statement (fuel + 1) context) n c →
      c.next.is .keyword "if" = true → expression fuel loosest (c.skip 1) = .ok condition c₁ →
      Parser.block fuel context "'if' condition" c₁ = .ok body c₂ →
      Calls ts (.elifs fuel context [(condition, body)]) n c₂
  | elifBlock {fuel n : Nat} {context : Context} {branches : List (Node × List Node)}
      {c c₁ : Cursor} {condition : Node} : Calls ts (.elifs (fuel + 1) context branches) n c →
      c.next.is .keyword "elif" = true → expression fuel loosest (c.skip 1) = .ok condition c₁ →
      Calls ts (.block fuel context "'elif' condition") n c₁
  | elifNext {fuel n : Nat} {context : Context} {branches : List (Node × List Node)}
      {c c₁ c₂ : Cursor} {condition : Node} {body : List Node} :
      Calls ts (.elifs (fuel + 1) context branches) n c → c.next.is .keyword "elif" = true →
      expression fuel loosest (c.skip 1) = .ok condition c₁ →
      Parser.block fuel context "'elif' condition" c₁ = .ok body c₂ →
      Calls ts (.elifs fuel context (branches ++ [(condition, body)])) n c₂
  | elseBlock {fuel n : Nat} {context : Context} {c c₁ c₂ c₃ : Cursor} {condition : Node}
      {body : List Node} {branches : List (Node × List Node)} :
      Calls ts (.statement (fuel + 1) context) n c → c.next.is .keyword "if" = true →
      expression fuel loosest (c.skip 1) = .ok condition c₁ →
      Parser.block fuel context "'if' condition" c₁ = .ok body c₂ →
      Parser.elifs fuel context [(condition, body)] c₂ = .ok branches c₃ →
      c₃.next.is .keyword "else" = true →
      Calls ts (.block fuel context "'else'") n (c₃.skip 1)
  | whileBlock {fuel n : Nat} {context : Context} {c c₁ : Cursor} {condition : Node} :
      Calls ts (.statement (fuel + 1) context) n c → c.next.is .keyword "while" = true →
      expression fuel loosest (c.skip 1) = .ok condition c₁ →
      Calls ts (.block fuel { context with inLoop := true } "'while' condition") n c₁
  | forBlock {fuel n : Nat} {context : Context} {c c₁ : Cursor} {iterable : Node} :
      Calls ts (.statement (fuel + 1) context) n c → c.next.is .keyword "for" = true →
      (c.skip 1).next.kind = .identifier → (c.skip 2).next.is .keyword "in" = true →
      expression fuel loosest (c.skip 3) = .ok iterable c₁ →
      Calls ts (.block fuel { context with inLoop := true } "'for' clause") n c₁
  | defBlock {fuel n : Nat} {context : Context} {c c₁ : Cursor} {params : List String} :
      Calls ts (.statement (fuel + 1) context) n c → c.next.is .keyword "def" = true →
      (c.skip 1).next.kind = .identifier → (c.skip 2).next.is .delimiter "(" = true →
      parameters ")" "a parameter name" fuel [] (c.skip 3) = .ok params c₁ →
      c₁.next.is .delimiter ")" = true →
      Calls ts (.block fuel ⟨false, true⟩ "function signature") n (c₁.skip 1)
  | body {fuel n : Nat} {context : Context} {header : String} {c : Cursor} :
      Calls ts (.block (fuel + 1) context header) n c → c.next.is .delimiter ":" = true →
      (c.skip 1).next.kind = .newline → (c.skip 2).next.kind = .indent →
      Calls ts (.statements fuel context false) (n + 1) (c.skip 3)

variable {ts : List Token} {c : Cursor} {n : Nat}

/-- What a successful call leaves. -/
theorem sound_of_ok {α : Type} {blocks : Option Nat} {r : Outcome α} {a : α}
    (h : Answers ts blocks r) (hr : r = .ok a c) : c.Sound ts blocks := by
  rw [hr] at h
  exact h

theorem expression_sound {fuel level : Nat} {blocks : Option Nat} {c' : Cursor} {e : Node}
    (hc : c.Sound ts blocks) (h : expression fuel level c = .ok e c') : c'.Sound ts blocks :=
  sound_of_ok (answers_of_inLine hc (expression_inLine _ _ hc.toIn)) h

/-- At the top level no block is entered, and below it at least one. -/
def Call.Suits : Call → Nat → Prop
  | .statements _ _ topLevel, n => topLevel = true ↔ n = 0
  | _, _ => True

theorem calls_sound (hts : ts ≠ []) (hnested : Inside 0 (Cursor.ofTokens ts).rest) {call : Call}
    (h : Calls ts call n c) : c.Sound ts (some n) ∧ call.Suits n := by
  have hword {c : Cursor} {n : Nat} {lexeme : String} (hc : c.Sound ts (some n))
      (h : c.next.is .keyword lexeme = true) : (c.skip 1).Sound ts (some n) :=
    hc.of_along (along_is h trivial)
  induction h with
  | start => exact ⟨ofTokens_sound hts (by simpa using hnested), by simp [Call.Suits]⟩
  | statement _ _ _ ih => exact ⟨ih.1.afterNewlines, trivial⟩
  | next _ _ _ hs ih =>
    refine ⟨sound_of_ok (recovering_answers ?_) hs, ih.2⟩
    exact (rules_answer ts _).statement _ _ _ ih.1.afterNewlines
  | stray _ hd ih =>
    obtain ⟨hc, htop⟩ := ih
    obtain rfl := htop.mp rfl
    exact absurd hd hc.afterNewlines.not_dedent
  | ifBlock _ hk he ih => exact ⟨expression_sound (hword ih.1 hk) he, trivial⟩
  | elifs _ hk he hb ih =>
    have hc := expression_sound (hword ih.1 hk) he
    exact ⟨sound_of_ok ((rules_answer ts _).block _ _ _ _ hc) hb, trivial⟩
  | elifBlock _ hk he ih => exact ⟨expression_sound (hword ih.1 hk) he, trivial⟩
  | elifNext _ hk he hb ih =>
    have hc := expression_sound (hword ih.1 hk) he
    exact ⟨sound_of_ok ((rules_answer ts _).block _ _ _ _ hc) hb, trivial⟩
  | elseBlock _ hk he hb hes hk' ih =>
    have hc := expression_sound (hword ih.1 hk) he
    have hc' := sound_of_ok ((rules_answer ts _).block _ _ _ _ hc) hb
    exact ⟨hword (sound_of_ok ((rules_answer ts _).elifs _ _ _ _ hc') hes) hk', trivial⟩
  | whileBlock _ hk he ih => exact ⟨expression_sound (hword ih.1 hk) he, trivial⟩
  | forBlock _ hk hn hin he ih =>
    have hc := (hword ih.1 hk).skip_line (hn ▸ trivial)
    rw [Cursor.skip_skip] at hc
    have hc' := hword hc hin
    rw [Cursor.skip_skip] at hc'
    exact ⟨expression_sound hc' he, trivial⟩
  | @defBlock fuel _ _ c _ _ _ hk hn ho hp hclose ih =>
    have hc := (hword ih.1 hk).skip_line (hn ▸ trivial)
    rw [Cursor.skip_skip] at hc
    have hc' := hc.of_along (along_is ho trivial)
    rw [Cursor.skip_skip] at hc'
    have hparams : InLine ts (c.skip 3) (parameters ")" "a parameter name" fuel [] (c.skip 3)) :=
      parameters_inLine ")" (by decide) fuel [] _ hc'.toIn
    have hc'' := sound_of_ok (answers_of_inLine hc' hparams) hp
    exact ⟨hc''.of_along (along_is hclose trivial), trivial⟩
  | body _ hcolon hline hindent ih =>
    have hc := (ih.1.of_along (along_is hcolon trivial)).skip_newline hline
    rw [Cursor.skip_skip] at hc
    have hc' := hc.skip_indent hindent
    rw [Cursor.skip_skip] at hc'
    exact ⟨hc', by simp [Call.Suits]⟩

/-- The layout that is taken on the way into some blocks. -/
theorem taken_layout (hnested : Inside 0 (Cursor.ofTokens ts).rest) (hc : c.Sound ts (some n)) :
    ∃ taken, (Cursor.ofTokens ts).rest = taken ++ c.rest ∧
      countOf .indent taken = countOf .dedent taken + n := by
  obtain ⟨taken, htaken⟩ := hc.rest
  obtain ⟨_, hall⟩ := hnested
  obtain ⟨_, hleft⟩ := hc.inside n rfl
  have h₁ := hall.count
  have h₂ := hleft.count
  rw [← htaken] at h₁
  simp only [countOf, List.countP_append] at h₁ h₂ ⊢
  exact ⟨taken, htaken.symm, by omega⟩

theorem recorded_allowed (hts : ts ≠ []) (hnested : Inside 0 (Cursor.ofTokens ts).rest) :
    ∀ e ∈ recorded ts, e.fault.OfRule := by
  have hstart : (Cursor.ofTokens ts).Sound ts (some 0) :=
    ofTokens_sound hts (by simpa using hnested)
  have hans := (rules_answer ts (fuelFor ts)).statements (some 0) ⟨false, false⟩ true _ (by simp)
    hstart
  unfold recorded recordedIn
  intro e he
  cases hs : statements (fuelFor ts) ⟨false, false⟩ true (Cursor.ofTokens ts) with
  | ok body c =>
    rw [hs] at hans he
    exact (hans.errors e he).1 rfl
  | error halt c =>
    rw [hs] at hans he
    obtain ⟨-, inner, hc, hsome, -⟩ := hans
    exact (hc.errors e he).1 hsome

/-- While the tokens of a source are parsed, no error about the end of a block is recorded, and
wherever a rule for statements is called, the INDENTs taken so far outnumber the DEDENTs by the
blocks in progress. -/
theorem parsing_keeps_blocks {source : String} (h : tokenize source = .ok ts) :
    (∀ e ∈ recorded ts, e.fault ≠ .strayDedent ∧
      ∀ found, e.fault ≠ .expected "end of block" found) ∧
    ∀ call n c, Calls ts call n c → ∃ taken, (Cursor.ofTokens ts).rest = taken ++ c.rest ∧
      countOf .indent taken = countOf .dedent taken + n := by
  have hts := Lexer.tokenize_ne_nil h
  have hnested := tokenize_inside h
  constructor
  · intro e he
    have hf := recorded_allowed hts hnested e he
    constructor
    · intro h
      rw [h] at hf
      exact hf
    · intro found h
      rw [h] at hf
      exact hf rfl
  · intro call n c hcalls
    exact taken_layout hnested (calls_sound hts hnested hcalls).1

/-- A loop whose line is left open by a bracket up to the end of the text. -/
def openBracket : String := "while a:\n    b = (1\nc\n"

def openBracketTokens : List Token :=
  [⟨.keyword, "while", ⟨1, 1⟩⟩, ⟨.identifier, "a", ⟨1, 7⟩⟩, ⟨.delimiter, ":", ⟨1, 8⟩⟩,
   ⟨.newline, "\n", ⟨1, 9⟩⟩, ⟨.indent, "", ⟨2, 5⟩⟩, ⟨.identifier, "b", ⟨2, 5⟩⟩,
   ⟨.operator, "=", ⟨2, 7⟩⟩, ⟨.delimiter, "(", ⟨2, 9⟩⟩, ⟨.integer, "1", ⟨2, 10⟩⟩,
   ⟨.identifier, "c", ⟨3, 1⟩⟩, ⟨.dedent, "", ⟨4, 1⟩⟩, ⟨.stop, "", ⟨4, 1⟩⟩]

/-- The bracket is the only error there, and its statement starts inside one block. -/
theorem open_bracket_keeps_blocks :
    tokenize openBracket = .ok openBracketTokens ∧
    (recorded openBracketTokens).map ParseError.text =
      ["3:1: UnexpectedToken: expected ')' to close '(', got identifier 'c'"] ∧
    ∃ c taken, Calls openBracketTokens (.statement 108 ⟨true, false⟩) 1 c ∧
      (Cursor.ofTokens openBracketTokens).rest = taken ++ c.rest ∧
      countOf .indent taken = countOf .dedent taken + 1 := by
  have htokens : tokenize openBracket = .ok openBracketTokens := by decide +kernel
  have hcall : Calls openBracketTokens (.statement 108 ⟨true, false⟩) 1
      ((Cursor.ofTokens openBracketTokens).skip 5) := by
    obtain ⟨a, ha⟩ : ∃ a, expression 110 loosest ((Cursor.ofTokens openBracketTokens).skip 1) =
        .ok a ((Cursor.ofTokens openBracketTokens).skip 2) := ⟨_, by cbv⟩
    have hwhile := Calls.statement (@Calls.start openBracketTokens) (by decide) (by decide)
    have hbody := (hwhile.whileBlock (by decide) ha).body (by decide) (by decide) (by decide)
    exact hbody.statement (by decide) (by decide)
  obtain ⟨taken, htaken, hcount⟩ := (parsing_keeps_blocks htokens).2 _ _ _ hcall
  exact ⟨htokens, by decide +kernel, _, taken, hcall, htaken, hcount⟩

end Parser

end Offside
