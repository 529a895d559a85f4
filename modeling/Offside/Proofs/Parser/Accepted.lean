import Offside.Proofs.Lexer.Indentation
import Offside.Proofs.Parser.Appending
import Offside.Proofs.Parser.Recovery

/-!
Programs without an error. Where a rule for statements ends and no error is recorded, none was
before: the statements of a list have been read one after the other, and none was passed over.
-/

namespace Offside.Parser

variable {ts : List Token} {c c' d : Cursor} {n m : Nat} {context : Context} {topLevel : Bool}
  {header : String} {s : Node} {ss : List Node} {branches bs : List (Node × List Node)}

/-- A cursor inside so many blocks of a list, with no error so far. -/
structure Cursor.Clean (ts : List Token) (n : Nat) (c : Cursor) : Prop extends
    c.Sound ts (some n) where
  none : c.errors = []

theorem expression_along {fuel level : Nat} {e : Node} (h : c.In ts)
    (he : expression fuel level c = .ok e c') : Along c c' := by
  have hline := expression_inLine fuel level h
  rwa [he] at hline

theorem parameters_along {fuel : Nat} {close what : String} {names params : List String}
    (h : c.In ts) (hw : what ≠ "end of block")
    (hp : parameters close what fuel names c = .ok params c') : Along c c' := by
  have hline := parameters_inLine close hw fuel names c h
  rwa [hp] at hline

namespace Cursor.Clean

theorem of_along (h : c.Clean ts n) (ha : Along c c') : c'.Clean ts n := by
  refine ⟨h.toSound.of_along ha, ?_⟩
  rw [ha.errors_eq]
  exact h.none

theorem skip_line (h : c.Clean ts n) (hk : c.next.kind.OfLine) : (c.skip 1).Clean ts n :=
  h.of_along (along_skip hk)

theorem skip_is (h : c.Clean ts n) {kind : TokenKind} {lexeme : String}
    (hn : c.next.is kind lexeme = true) (hk : kind.OfLine) : (c.skip 1).Clean ts n :=
  h.of_along (along_is hn hk)

theorem skip_newline (h : c.Clean ts n) (hk : c.next.kind = .newline) : (c.skip 1).Clean ts n :=
  ⟨h.toSound.skip_newline hk, h.none⟩

theorem skip_indent (h : c.Clean ts n) (hk : c.next.kind = .indent) :
    (c.skip 1).Clean ts (n + 1) :=
  ⟨h.toSound.skip_indent hk, h.none⟩

theorem afterNewlines (h : c.Clean ts n) : c.afterNewlines.Clean ts n :=
  ⟨h.toSound.afterNewlines, h.none⟩

theorem expression {fuel level : Nat} {e : Node} (h : c.Clean ts n)
    (he : expression fuel level c = .ok e c') : c'.Clean ts n :=
  h.of_along (expression_along h.toIn he)

theorem parameters {fuel : Nat} {close what : String} {names params : List String}
    (h : c.Clean ts n) (hw : what ≠ "end of block")
    (hp : parameters close what fuel names c = .ok params c') : c'.Clean ts n :=
  h.of_along (parameters_along h.toIn hw hp)

theorem inner (h : c.Clean ts n) : ∀ t ∈ c.rest, t.kind ≠ .stop := by
  obtain ⟨atStart, hnested⟩ := h.inside n rfl
  exact hnested.kinds

end Cursor.Clean

/-! ### No error before -/

theorem block_clean {body : List Node} (hc : c.Sound ts (some n))
    (h : block m context header c = .ok body c') (he : c'.errors = []) :
    c.Clean ts n ∧ c'.Clean ts n := by
  have hkeeps := ((statements_kept (noBranch_stop hc.kind) m).block context header c).keeps
  have hans := (rules_answer ts m).block _ context header c hc
  rw [h] at hans
  exact ⟨⟨hc, ((hkeeps hc.kind h).2 he).errors⟩, hans, he⟩

theorem elifs_clean (hc : c.Sound ts (some n)) (h : elifs m context branches c = .ok bs c')
    (he : c'.errors = []) : c.Clean ts n ∧ c'.Clean ts n := by
  have hkeeps := (statements_kept (noBranch_stop hc.kind) m).elifs context branches c
  have hans := (rules_answer ts m).elifs _ context branches c hc
  rw [h] at hans
  exact ⟨⟨hc, ((hkeeps hc.kind h).2 he).errors⟩, hans, he⟩

theorem statements_clean (hc : c.Sound ts (some n)) (htop : topLevel = true ↔ n = 0)
    (h : statements m context topLevel c = .ok ss c') (he : c'.errors = []) :
    c.Clean ts n ∧ c'.Clean ts n := by
  have hans := (rules_answer ts m).statements (some n) context topLevel c
    (fun k hk => Option.mem_some.mp hk ▸ htop) hc
  rw [h] at hans
  refine ⟨⟨hc, ?_⟩, hans, he⟩
  cases topLevel with
  | false =>
    exact (((statements_kept (noBranch_stop hc.kind) m).statements context c hc.kind h).2 he).1
  | true =>
    obtain ⟨atStart, hnested⟩ := hc.inside n rfl
    exact (statements_append (noBranch_stop hc.kind) hc.kind context hc.kind hnested.kinds h he).1

/-! ### What is read -/

theorem newlines_passed (c : Cursor) (hs : c.stop.kind = .stop) :
    c.afterNewlines.next.kind ≠ .newline := by
  unfold Cursor.next Cursor.afterNewlines
  dsimp only
  have hhead := List.head?_dropWhile_not (fun t : Token => t.kind == .newline) c.rest
  cases hrest : c.rest.dropWhile fun t : Token => t.kind == .newline with
  | nil => simp [hs]
  | cons t ts =>
    rw [hrest] at hhead
    simpa using hhead

/-- No statement begins with a token of the layout. -/
theorem statement_begins (hstop : c.next.kind ≠ .stop) (hdedent : c.next.kind ≠ .dedent)
    (hline : c.next.kind ≠ .newline) (h : statement m context c = .ok s c') :
    c.next.kind.OfLine := by
  refine TokenKind.ofLine_of_ne hline (fun hindent => ?_) hdedent hstop
  cases m with
  | zero => cases h
  | succ m =>
    rw [statement_succ, if_neg (by simp [hindent]), if_pos hindent] at h
    cases h

/-- A list of statements is at its end, or goes on with a statement. -/
theorem statements_accepted (hc : c.Sound ts (some n)) (htop : topLevel = true ↔ n = 0)
    (h : statements (m + 1) context topLevel c = .ok ss c') (he : c'.errors = []) :
    (ss = [] ∧ c' = c.afterNewlines) ∨
    ∃ s d rest, c.afterNewlines.next.kind.OfLine ∧ statement m context c.afterNewlines = .ok s d ∧
      d.Clean ts n ∧ statements m context topLevel d = .ok rest c' ∧ ss = s :: rest := by
  have hlines := hc.afterNewlines
  rw [statements_succ] at h
  by_cases hstop : c.afterNewlines.next.kind = .stop
  · rw [statementsFrom, if_pos hstop] at h
    cases h
    exact .inl ⟨rfl, rfl⟩
  by_cases hdedent : c.afterNewlines.next.kind = .dedent
  · have hinner : ¬ topLevel = true := by
      intro ht
      obtain rfl := htop.mp ht
      exact hlines.not_dedent hdedent
    rw [statementsFrom, if_neg hstop, if_pos hdedent, if_neg hinner] at h
    cases h
    exact .inl ⟨rfl, rfl⟩
  rcases statementsFrom_inv hstop hdedent h with ⟨s, d, rest, hs, hrest, rfl⟩ | ⟨e, d, hd, hrest⟩
  · right
    have hans := (rules_answer ts m).statement _ context _ hlines
    rw [hs] at hans
    exact ⟨s, d, rest, statement_begins hstop hdedent (newlines_passed c hc.kind) hs, hs,
      (statements_clean hans htop hrest he).1, hrest, rfl⟩
  · -- the error of a statement that is passed over would stay
    have hans := recovering_answers ((rules_answer ts m).statement _ context _ hlines)
    rw [recovering_apply, hd] at hans
    have hnone := (statements_clean hans htop hrest he).1.none
    simp [Cursor.recovered, Cursor.recording] at hnone

/-- At the top level statements are read up to the end. -/
theorem statements_end (h : statements m context true c = .ok ss c') : c'.next.kind = .stop := by
  induction m generalizing c ss with
  | zero => cases h
  | succ m ih =>
    rw [statements_succ] at h
    by_cases hstop : c.afterNewlines.next.kind = .stop
    · rw [statementsFrom, if_pos hstop] at h
      cases h
      exact hstop
    by_cases hdedent : c.afterNewlines.next.kind = .dedent
    · rw [statementsFrom, if_neg hstop, if_pos hdedent, if_pos rfl] at h
      exact ih h
    rcases statementsFrom_inv hstop hdedent h with ⟨_, _, _, -, hrest, -⟩ | ⟨_, _, -, hrest⟩
    · exact ih hrest
    · exact ih hrest

/-- A block is a colon, the end of the line, an INDENT, statements and a DEDENT. -/
theorem block_accepted {body : List Node} (hc : c.Clean ts n)
    (h : block (m + 1) context header c = .ok body c') (he : c'.errors = []) :
    c.next.is .delimiter ":" = true ∧ (c.skip 1).next.kind = .newline ∧
      ((c.skip 1).skip 1).next.kind = .indent ∧ (((c.skip 1).skip 1).skip 1).Clean ts (n + 1) ∧
      ∃ d, statements m context false (((c.skip 1).skip 1).skip 1) = .ok body d ∧
        d.Clean ts (n + 1) ∧ d.next.kind = .dedent ∧ c' = d.skip 1 := by
  rw [block_succ, expect_bind] at h
  split at h
  next hcolon =>
    rw [expectKind_discard_bind] at h
    split at h
    next hline =>
      rw [expectKind_discard_bind] at h
      split at h
      next hindent =>
        obtain ⟨body', d, hbody, hlast⟩ := bind_ok_iff.mp h
        rw [expectKind_discard_bind] at hlast
        split at hlast
        next hdedent =>
          cases hlast
          have hbegin := ((hc.skip_is hcolon trivial).skip_newline hline).skip_indent hindent
          have hend := (statements_clean hbegin.toSound (by simp) hbody he).2
          exact ⟨hcolon, hline, hindent, hbegin, d, hbody, hend, hdedent, rfl⟩
        · cases hlast
      · cases h
    · cases h
  · cases h

/-! ### Programs -/

/-- What the parser accepts, it reads without an error. -/
theorem accepted_statements {source : String} {program : Node}
    (h : parseProgram source = .ok program) :
    ∃ ts body c, tokenize source = .ok ts ∧ program = .program Position.start body ∧
      statements (fuelFor ts) ⟨false, false⟩ true (.ofTokens ts) = .ok body c ∧
      c.errors = [] := by
  unfold parseProgram at h
  split at h
  · next ts hts =>
    rw [parse_eq] at h
    unfold verdict at h
    split at h
    · next body c hbody =>
      split at h
      · next hempty =>
        cases h
        exact ⟨ts, body, c, hts, rfl, hbody, List.isEmpty_iff.mp hempty⟩
      · cases h
    all_goals cases h
  · cases h

/-- The tokens of a source as the rules begin with them. -/
theorem source_clean {source : String} (h : tokenize source = .ok ts) :
    (Cursor.ofTokens ts).Clean ts 0 := by
  have hinside := tokenize_inside h
  obtain ⟨front, stop, rfl, hstop, -⟩ := Lexer.tokenize_nested h
  refine ⟨ofTokens_sound (by simp) fun n hn => Option.mem_some.mp hn ▸ hinside, ?_⟩
  rw [ofTokens_concat hstop]

/-! ### Compound statements -/

/-- Another branch, or none. -/
theorem elifs_accepted (hc : c.Clean ts n) (h : elifs (m + 1) context branches c = .ok bs c')
    (he : c'.errors = []) : (c.next.is .keyword "elif" = false ∧ bs = branches ∧ c' = c) ∨
      c.next.is .keyword "elif" = true ∧ (c.skip 1).Clean ts n ∧
      ∃ condition body c₁ c₂, expression m loosest (c.skip 1) = .ok condition c₁ ∧
        c₁.Clean ts n ∧ block m context "'elif' condition" c₁ = .ok body c₂ ∧ c₂.Clean ts n ∧
        elifs m context (branches ++ [(condition, body)]) c₂ = .ok bs c' := by
  rw [elifs_succ] at h
  split at h
  · next hn =>
    right
    have hskip := hc.skip_is hn trivial
    obtain ⟨condition, c₁, hcondition, h⟩ := bind_ok_iff.mp h
    obtain ⟨body, c₂, hbody, hmore⟩ := bind_ok_iff.mp h
    have hc₁ := hskip.expression hcondition
    have hans := (rules_answer ts m).block _ context "'elif' condition" c₁ hc₁.toSound
    rw [hbody] at hans
    exact ⟨hn, hskip, condition, body, c₁, c₂, hcondition, hc₁, hbody,
      (elifs_clean hans hmore he).1, hmore⟩
  · next hn =>
    cases h
    exact .inl ⟨by simpa using hn, rfl, rfl⟩

/-- What is read of a conditional after its keyword. -/
theorem ifTail_accepted {pos : Position} (hc : c.Clean ts n)
    (h : ifTail m context pos c = .ok s c') (he : c'.errors = []) :
    ∃ condition body branches c₁ c₂ c₃, expression m loosest c = .ok condition c₁ ∧
      c₁.Clean ts n ∧ block m context "'if' condition" c₁ = .ok body c₂ ∧ c₂.Clean ts n ∧
      elifs m context [(condition, body)] c₂ = .ok branches c₃ ∧ c₃.Clean ts n ∧
      ((c₃.next.is .keyword "else" = false ∧ c' = c₃ ∧ s = .ifStmt pos branches none) ∨
        c₃.next.is .keyword "else" = true ∧ (c₃.skip 1).Clean ts n ∧
        ∃ others, block m context "'else'" (c₃.skip 1) = .ok others c' ∧
          s = .ifStmt pos branches (some others)) := by
  obtain ⟨condition, c₁, hcondition, h⟩ := bind_ok_iff.mp h
  obtain ⟨body, c₂, hbody, h⟩ := bind_ok_iff.mp h
  obtain ⟨branches, c₃, hbranches, h⟩ := bind_ok_iff.mp h
  have hc₁ := hc.expression hcondition
  have hbefore := (rules_answer ts m).block _ context "'if' condition" c₁ hc₁.toSound
  rw [hbody] at hbefore
  have hans := (rules_answer ts m).elifs _ context [(condition, body)] c₂ hbefore
  rw [hbranches] at hans
  rw [accept_bind] at h
  split at h
  · next hn =>
    obtain ⟨others, c₄, hothers, hlast⟩ := bind_ok_iff.mp h
    cases hlast
    have hc₄ := (block_clean (hans.skip_line ((is_iff.mp hn).1 ▸ trivial)) hothers he).1
    have hc₃ : c₃.Clean ts n := ⟨hans, hc₄.none⟩
    exact ⟨condition, body, branches, c₁, c₂, c₃, hcondition, hc₁, hbody,
      (elifs_clean hbefore hbranches hc₃.none).1, hbranches, hc₃,
      .inr ⟨hn, hc₄, others, hothers, rfl⟩⟩
  · next hn =>
    cases h
    obtain ⟨hc₂, hc₃⟩ := elifs_clean hbefore hbranches he
    exact ⟨condition, body, branches, c₁, c₂, c', hcondition, hc₁, hbody, hc₂, hbranches, hc₃,
      .inl ⟨by simpa using hn, rfl, rfl⟩⟩

theorem whileTail_accepted {pos : Position} (hc : c.Clean ts n)
    (h : whileTail m context pos c = .ok s c') :
    ∃ condition body c₁, expression m loosest c = .ok condition c₁ ∧ c₁.Clean ts n ∧
      block m { context with inLoop := true } "'while' condition" c₁ = .ok body c' ∧
      s = .whileStmt pos condition body := by
  obtain ⟨condition, c₁, hcondition, h⟩ := bind_ok_iff.mp h
  obtain ⟨body, c₂, hbody, hlast⟩ := bind_ok_iff.mp h
  cases hlast
  exact ⟨condition, body, c₁, hcondition, hc.expression hcondition, hbody, rfl⟩

theorem forTail_accepted {pos : Position} (hc : c.Clean ts n)
    (h : forTail m context pos c = .ok s c') :
    c.next.kind = .identifier ∧ (c.skip 1).next.is .keyword "in" = true ∧
      ((c.skip 1).skip 1).Clean ts n ∧
      ∃ iterable body c₁, expression m loosest ((c.skip 1).skip 1) = .ok iterable c₁ ∧
        c₁.Clean ts n ∧
        block m { context with inLoop := true } "'for' clause" c₁ = .ok body c' ∧
        s = .forStmt pos c.next.lexeme iterable body := by
  rw [forTail, expectKind_bind] at h
  split at h
  next hname =>
    rw [expect_bind] at h
    split at h
    next hin =>
      obtain ⟨iterable, c₁, hiterable, h⟩ := bind_ok_iff.mp h
      obtain ⟨body, c₂, hbody, hlast⟩ := bind_ok_iff.mp h
      cases hlast
      have hbegin := (hc.skip_line (hname ▸ trivial)).skip_is hin trivial
      exact ⟨hname, hin, hbegin, iterable, body, c₁, hiterable, hbegin.expression hiterable,
        hbody, rfl⟩
    · cases h
  · cases h

theorem defTail_accepted {pos : Position} (hc : c.Clean ts n)
    (h : defTail m pos c = .ok s c') :
    c.next.kind = .identifier ∧ (c.skip 1).next.is .delimiter "(" = true ∧
      ((c.skip 1).skip 1).Clean ts n ∧
      ∃ params body c₁, parameters ")" "a parameter name" m [] ((c.skip 1).skip 1) = .ok params c₁ ∧
        c₁.Clean ts n ∧ c₁.next.is .delimiter ")" = true ∧ (c₁.skip 1).Clean ts n ∧
        block m ⟨false, true⟩ "function signature" (c₁.skip 1) = .ok body c' ∧
        s = .functionDef pos c.next.lexeme (params.map Json.string) body := by
  rw [defTail, expectKind_bind] at h
  split at h
  next hname =>
    rw [expect_bind] at h
    split at h
    next hopen =>
      obtain ⟨params, c₁, hparams, h⟩ := bind_ok_iff.mp h
      rw [expect_bind] at h
      split at h
      next hclose =>
        obtain ⟨body, c₂, hbody, hlast⟩ := bind_ok_iff.mp h
        cases hlast
        have hbegin := (hc.skip_line (hname ▸ trivial)).skip_is hopen trivial
        have hc₁ := hbegin.parameters (by decide) hparams
        exact ⟨hname, hopen, hbegin, params, body, c₁, hparams, hc₁, hclose,
          hc₁.skip_is hclose trivial, hbody, rfl⟩
      · cases h
    · cases h
  · cases h

end Offside.Parser
