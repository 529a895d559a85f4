import Offside.Proofs.Parser.Accepted
import Offside.Proofs.Parser.Soundness

/-!
Statements as derivations over tokens. What the parser reads without an error is derived from the
tokens that it takes: the statements of a list one after another, with ends of lines between them,
and blocks with any number of statements.
-/

namespace Offside

open Offside.Parser (Readable)

namespace Grammar

/-- What is derived: a statement, the branches behind the first one of a conditional, a block with
the colon before it, or a list of statements. -/
inductive Clause where
  | statement (s : Node)
  | branches (bs : List (Node × List Node)) (e : Option (List Node))
  | block (ss : List Node)
  | statements (ss : List Node)

/-- Derivations yield trees without places. -/
inductive Builds : Clause → List Token → Prop where
  | exprStmt {u : List Token} {line : Token} {e : Node} : Derives Readable (.expr .test e) u →
      line.kind = .newline → Builds (.statement (.exprStmt .unknown e)) (u ++ [line])
  | assign {u v : List Token} {mark line : Token} {a e : Node} :
      Derives Readable (.expr .test a) u → Parser.isAssignable a = true → mark.is .operator "=" →
      Derives Readable (.expr .test e) v → line.kind = .newline →
      Builds (.statement (.assign .unknown a e)) (u ++ mark :: v ++ [line])
  | augAssign {u v : List Token} {mark line : Token} {op : String} {a e : Node} :
      Derives Readable (.expr .test a) u → Parser.isAssignable a = true → mark.kind = .operator →
      Parser.augmented? mark.lexeme = some op → Derives Readable (.expr .test e) v →
      line.kind = .newline →
      Builds (.statement (.augAssign .unknown a op e)) (u ++ mark :: v ++ [line])
  | returns {word line : Token} : word.is .keyword "return" → line.kind = .newline →
      Builds (.statement (.returnStmt .unknown .hole)) [word, line]
  | returnsValue {word line : Token} {u : List Token} {e : Node} : word.is .keyword "return" →
      Derives Readable (.expr .test e) u → line.kind = .newline →
      Builds (.statement (.returnStmt .unknown e)) (word :: u ++ [line])
  | breaks {word line : Token} : word.is .keyword "break" → line.kind = .newline →
      Builds (.statement (.breakStmt .unknown)) [word, line]
  | continues {word line : Token} : word.is .keyword "continue" → line.kind = .newline →
      Builds (.statement (.continueStmt .unknown)) [word, line]
  | passes {word line : Token} : word.is .keyword "pass" → line.kind = .newline →
      Builds (.statement (.passStmt .unknown)) [word, line]
  | delete {word line : Token} {u : List Token} {a i : Node} : word.is .keyword "del" →
      Derives Readable (.expr .test (.index .unknown a i)) u → line.kind = .newline →
      Builds (.statement (.delete .unknown (.index .unknown a i))) (word :: u ++ [line])
  | conditional {word : Token} {u v w : List Token} {a : Node} {ss : List Node}
      {bs : List (Node × List Node)} {e : Option (List Node)} : word.is .keyword "if" →
      Derives Readable (.expr .test a) u → Builds (.block ss) v → Builds (.branches bs e) w →
      Builds (.statement (.ifStmt .unknown ((a, ss) :: bs) e)) (word :: u ++ v ++ w)
  | whileLoop {word : Token} {u v : List Token} {a : Node} {ss : List Node} :
      word.is .keyword "while" → Derives Readable (.expr .test a) u → Builds (.block ss) v →
      Builds (.statement (.whileStmt .unknown a ss)) (word :: u ++ v)
  | forLoop {word name within : Token} {u v : List Token} {a : Node} {ss : List Node} :
      word.is .keyword "for" → name.kind = .identifier → within.is .keyword "in" →
      Derives Readable (.expr .test a) u → Builds (.block ss) v →
      Builds (.statement (.forStmt .unknown name.lexeme a ss)) (word :: name :: within :: u ++ v)
  | function {word name opening closing : Token} {u v : List Token} {xs : List String}
      {ss : List Node} : word.is .keyword "def" → name.kind = .identifier →
      opening.is .delimiter "(" → Names u xs → xs.Nodup → closing.is .delimiter ")" →
      Builds (.block ss) v →
      Builds (.statement (.functionDef .unknown name.lexeme (xs.map Json.string) ss))
        (word :: name :: opening :: u ++ closing :: v)
  | noBranch : Builds (.branches [] none) []
  | otherwise {word : Token} {u : List Token} {ss : List Node} : word.is .keyword "else" →
      Builds (.block ss) u → Builds (.branches [] (some ss)) (word :: u)
  | branch {word : Token} {u v w : List Token} {a : Node} {ss : List Node}
      {bs : List (Node × List Node)} {e : Option (List Node)} : word.is .keyword "elif" →
      Derives Readable (.expr .test a) u → Builds (.block ss) v → Builds (.branches bs e) w →
      Builds (.branches ((a, ss) :: bs) e) (word :: u ++ v ++ w)
  | block {colon line indent dedent : Token} {u : List Token} {ss : List Node} :
      colon.is .delimiter ":" → line.kind = .newline → indent.kind = .indent →
      Builds (.statements ss) u → dedent.kind = .dedent →
      Builds (.block ss) (colon :: line :: indent :: u ++ [dedent])
  | done : Builds (.statements []) []
  | blank {line : Token} {u : List Token} {ss : List Node} : line.kind = .newline →
      Builds (.statements ss) u → Builds (.statements ss) (line :: u)
  | next {u v : List Token} {s : Node} {ss : List Node} : Builds (.statement s) u →
      Builds (.statements ss) v → Builds (.statements (s :: ss)) (u ++ v)

end Grammar

namespace Parser

open Grammar

variable {ts : List Token} {c c' : Cursor} {n fuel : Nat} {context : Context} {s e : Node}

/-! ### Statements of one line -/

theorem expression_derived (hc : Ready c) (h : expression fuel loosest c = .ok e c') :
    ∃ u, Takes c u c' ∧ Derives Readable (.expr .test e.bare) u := by
  obtain ⟨u, hu, hd, -⟩ := (reading_sound fuel).expression hc (Nat.le_refl 1) (by decide) h
  exact ⟨u, hu, hd⟩

theorem line_ends {a : Node} (hc : Ready c)
    (h : (endOfLine >>= fun _ => pure a) c = .ok s c') :
    ∃ line, Takes c [line] c' ∧ line.kind = .newline ∧ s = a := by
  rw [endOfLine_bind] at h
  split at h
  · next hk =>
    cases h
    exact ⟨c.next, takes_next hc.stop (by simp [hk]), hk, rfl⟩
  · cases h

theorem simpleTail_builds {pos : Position} {u : List Token} (hc : Ready c)
    (hd : Derives Readable (.expr .test e.bare) u) (h : simpleTail fuel pos e c = .ok s c') :
    ∃ v, Takes c v c' ∧ Builds (.statement s.bare) (u ++ v) := by
  rw [simpleTail_apply] at h
  split_ifs at h with hassigns htarget
  · obtain ⟨hk, hmark⟩ : c.next.kind = .operator ∧
        (c.next.lexeme = "=" ∨ (augmented? c.next.lexeme).isSome = true) := by
      simpa [assigns] using hassigns
    have hnext := takes_next hc.stop (by simp [hk])
    obtain ⟨value, c₁, hvalue, h⟩ := bind_ok_iff.mp h
    obtain ⟨v, hv, hdv⟩ := expression_derived (hnext.ready hc) hvalue
    have htaken := hnext.trans hv
    obtain ⟨line, hline, hkind, rfl⟩ := line_ends (htaken.ready hc) h
    have htarget' : isAssignable e.bare = true := (isAssignable_bare e).trans htarget
    refine ⟨_, htaken.trans hline, ?_⟩
    unfold assignment
    cases haug : augmented? c.next.lexeme with
    | some op => simpa [Node.bare] using Builds.augAssign hd htarget' hk haug hdv hkind
    | none =>
      have heq : c.next.lexeme = "=" := hmark.resolve_right (by simp [haug])
      simpa [Node.bare] using Builds.assign hd htarget' (is_iff.mpr ⟨hk, heq⟩) hdv hkind
  · obtain ⟨line, hline, hkind, rfl⟩ := line_ends hc h
    exact ⟨_, hline, .exprStmt hd hkind⟩

theorem simpleStatement_builds (hc : Ready c) (h : simpleStatement fuel c = .ok s c') :
    ∃ u, Takes c u c' ∧ Builds (.statement s.bare) u := by
  rw [simpleStatement_apply] at h
  obtain ⟨e, c₁, he, h⟩ := bind_ok_iff.mp h
  obtain ⟨u, hu, hd⟩ := expression_derived hc he
  obtain ⟨v, hv, hbuilds⟩ := simpleTail_builds (hu.ready hc) hd h
  exact ⟨_, hu.trans hv, hbuilds⟩

theorem returnStatement_builds (hc : Ready c) (hn : c.next.is .keyword "return" = true)
    (h : returnStatement fuel context c = .ok s c') :
    ∃ u, Takes c u c' ∧ Builds (.statement s.bare) u := by
  have hword := takes_is hc.stop (by simp) hn
  rw [returnStatement_apply] at h
  split_ifs at h
  · obtain ⟨line, hline, hkind, rfl⟩ := line_ends (hword.ready hc) h
    exact ⟨_, hword.trans hline, .returns hn hkind⟩
  · obtain ⟨value, c₁, hvalue, h⟩ := bind_ok_iff.mp h
    obtain ⟨u, hu, hd⟩ := expression_derived (hword.ready hc) hvalue
    have htaken := hword.trans hu
    obtain ⟨line, hline, hkind, rfl⟩ := line_ends (htaken.ready hc) h
    exact ⟨_, htaken.trans hline, .returnsValue hn hd hkind⟩

theorem deleteStatement_builds (hc : Ready c) (hn : c.next.is .keyword "del" = true)
    (h : deleteStatement fuel c = .ok s c') :
    ∃ u, Takes c u c' ∧ Builds (.statement s.bare) u := by
  have hword := takes_is hc.stop (by simp) hn
  rw [deleteStatement_apply] at h
  obtain ⟨target, c₁, htarget, h⟩ := bind_ok_iff.mp h
  obtain ⟨u, hu, hd⟩ := expression_derived (hword.ready hc) htarget
  have htaken := hword.trans hu
  unfold deleteTail at h
  split at h
  · obtain ⟨line, hline, hkind, rfl⟩ := line_ends (htaken.ready hc) h
    exact ⟨_, htaken.trans hline, .delete hn hd hkind⟩
  · cases h

/-- A statement of one word. -/
theorem word_builds {word : String} {a : Node} (hc : Ready c)
    (hn : c.next.is .keyword word = true)
    (hbuild : ∀ {w line : Token}, w.is .keyword word → line.kind = .newline →
      Builds (.statement a.bare) [w, line])
    (h : (endOfLine >>= fun _ => pure a) (c.skip 1) = .ok s c') :
    ∃ u, Takes c u c' ∧ Builds (.statement s.bare) u := by
  have hword := takes_is hc.stop (by simp) hn
  obtain ⟨line, hline, hkind, rfl⟩ := line_ends (hword.ready hc) h
  exact ⟨_, hword.trans hline, hbuild hn hkind⟩

/-! ### All statements -/

/-- What the rules build from the tokens that they take, if they record no error. -/
structure Building (ts : List Token) (fuel : Nat) : Prop where
  statements : ∀ {n context topLevel c ss c'}, c.Clean ts n → (topLevel = true ↔ n = 0) →
    statements fuel context topLevel c = .ok ss c' → c'.errors = [] →
    ∃ u, Takes c u c' ∧ Builds (.statements (Node.bareList ss)) u
  statement : ∀ {n context c s c'}, c.Clean ts n → statement fuel context c = .ok s c' →
    c'.errors = [] → ∃ u, Takes c u c' ∧ Builds (.statement s.bare) u
  block : ∀ {n context header c body c'}, c.Clean ts n →
    block fuel context header c = .ok body c' → c'.errors = [] →
    ∃ u, Takes c u c' ∧ Builds (.block (Node.bareList body)) u
  elifs : ∀ {n context branches c bs c'}, c.Clean ts n →
    elifs fuel context branches c = .ok bs c' → c'.errors = [] →
    ∃ u more, Takes c u c' ∧ bs = branches ++ more ∧ ∀ {v e}, Builds (.branches [] e) v →
      Builds (.branches (Node.bareBranches more) e) (u ++ v)

/-- The operators of a list are those of the language. -/
def Spelled (ts : List Token) : Prop := ∀ t ∈ ts, t.kind = .operator → t.lexeme.toList ∈ operators

theorem Cursor.Clean.ready (h : c.Clean ts n) (hs : Spelled ts) : Ready c := by
  refine ⟨h.kind, fun t ht => hs t ?_⟩
  obtain ⟨-, tail, htail, -⟩ := ofTokens_split ts
  rw [htail]
  exact List.mem_append_left _ (h.rest.subset ht)

theorem newlines_taken (c : Cursor) :
    ∃ u, Takes c u c.afterNewlines ∧ ∀ t ∈ u, t.kind = .newline := by
  refine ⟨c.rest.takeWhile (·.kind == .newline), ⟨?_, rfl, rfl⟩, fun t ht => ?_⟩
  · exact List.takeWhile_append_dropWhile.symm
  · simpa using List.mem_takeWhile_imp ht

theorem builds_newlines {u v : List Token} {ss : List Node} (hu : ∀ t ∈ u, t.kind = .newline)
    (h : Builds (.statements ss) v) : Builds (.statements ss) (u ++ v) := by
  induction u with
  | nil => exact h
  | cons t u ih =>
    obtain ⟨ht, hu⟩ := List.forall_mem_cons.mp hu
    exact .blank ht (ih hu)

theorem statements_build (ih : Building ts fuel) {topLevel : Bool} {ss : List Node}
    (hc : c.Clean ts n) (htop : topLevel = true ↔ n = 0)
    (h : statements (fuel + 1) context topLevel c = .ok ss c') (he : c'.errors = []) :
    ∃ u, Takes c u c' ∧ Builds (.statements (Node.bareList ss)) u := by
  obtain ⟨u, hu, hlines⟩ := newlines_taken c
  rcases statements_accepted hc.toSound htop h he with
    ⟨rfl, rfl⟩ | ⟨s, d, rest, -, hs, hd, hrest, rfl⟩
  · have hdone := builds_newlines hlines .done
    rw [List.append_nil] at hdone
    exact ⟨u, hu, hdone⟩
  · obtain ⟨v, hv, hbuilds⟩ := ih.statement hc.afterNewlines hs hd.none
    obtain ⟨w, hw, hmore⟩ := ih.statements hd htop hrest he
    exact ⟨_, hu.trans (hv.trans hw), builds_newlines hlines (.next hbuilds hmore)⟩

theorem block_builds (ih : Building ts fuel) {header : String} {body : List Node}
    (hc : c.Clean ts n) (h : block (fuel + 1) context header c = .ok body c')
    (he : c'.errors = []) : ∃ u, Takes c u c' ∧ Builds (.block (Node.bareList body)) u := by
  obtain ⟨hcolon, hline, hindent, hbegin, d, hbody, hd, hdedent, rfl⟩ := block_accepted hc h he
  obtain ⟨u, hu, hbuilds⟩ := ih.statements hbegin (by simp) hbody hd.none
  have h₁ := takes_is hc.kind (by simp) hcolon
  have h₂ := takes_next (c := c.skip 1) hc.kind (by simp [hline])
  have h₃ := takes_next (c := (c.skip 1).skip 1) hc.kind (by simp [hindent])
  have h₄ := takes_next (c := d) hd.kind (by simp [hdedent])
  refine ⟨_, h₁.trans (h₂.trans (h₃.trans (hu.trans h₄))), ?_⟩
  exact .block hcolon hline hindent hbuilds hdedent

theorem elifs_build (ih : Building ts fuel) (hs : Spelled ts)
    {branches bs : List (Node × List Node)} (hc : c.Clean ts n)
    (h : elifs (fuel + 1) context branches c = .ok bs c') (he : c'.errors = []) :
    ∃ u more, Takes c u c' ∧ bs = branches ++ more ∧ ∀ {v e}, Builds (.branches [] e) v →
      Builds (.branches (Node.bareBranches more) e) (u ++ v) := by
  rcases elifs_accepted hc h he with ⟨-, rfl, rfl⟩ |
    ⟨hn, hc₁, condition, body, c₂, c₃, hcondition, hc₂, hbody, hc₃, hmore⟩
  · exact ⟨[], [], Takes.refl _, (List.append_nil _).symm, fun h => h⟩
  · obtain ⟨u, hu, hd⟩ := expression_derived (hc₁.ready hs) hcondition
    obtain ⟨v, hv, hblock⟩ := ih.block hc₂ hbody hc₃.none
    obtain ⟨w, more, hw, rfl, hbranches⟩ := ih.elifs hc₃ hmore he
    have hword := takes_is hc.kind (by simp) hn
    refine ⟨_, (condition, body) :: more, hword.trans (hu.trans (hv.trans hw)), by simp, ?_⟩
    intro x e hlast
    simpa [Node.bareBranches] using Builds.branch hn hd hblock (hbranches hlast)

theorem ifTail_builds (ih : Building ts fuel) (hs : Spelled ts) {pos : Position} {word : Token}
    (hn : word.is .keyword "if") (hc : c.Clean ts n) (h : ifTail fuel context pos c = .ok s c')
    (he : c'.errors = []) : ∃ u, Takes c u c' ∧ Builds (.statement s.bare) (word :: u) := by
  obtain ⟨condition, body, branches, c₁, c₂, c₃, hcondition, hc₁, hbody, hc₂, hbranches, hc₃,
    hlast⟩ := ifTail_accepted hc h he
  obtain ⟨u, hu, hd⟩ := expression_derived (hc.ready hs) hcondition
  obtain ⟨v, hv, hblock⟩ := ih.block hc₁ hbody hc₂.none
  obtain ⟨w, more, hw, rfl, hmore⟩ := ih.elifs hc₂ hbranches hc₃.none
  have htaken := hu.trans (hv.trans hw)
  rcases hlast with ⟨-, rfl, rfl⟩ | ⟨helse, hc₄, others, hothers, rfl⟩
  · refine ⟨_, htaken, ?_⟩
    simpa [Node.bare, Node.bareBranches, Node.bareBody]
      using Builds.conditional hn hd hblock (hmore .noBranch)
  · obtain ⟨x, hx, hlast⟩ := ih.block hc₄ hothers he
    have hword := takes_is hc₃.kind (by simp) helse
    refine ⟨_, htaken.trans (hword.trans hx), ?_⟩
    simpa [Node.bare, Node.bareBranches, Node.bareBody]
      using Builds.conditional hn hd hblock (hmore (.otherwise helse hlast))

theorem whileTail_builds (ih : Building ts fuel) (hs : Spelled ts) {pos : Position} {word : Token}
    (hn : word.is .keyword "while") (hc : c.Clean ts n)
    (h : whileTail fuel context pos c = .ok s c') (he : c'.errors = []) :
    ∃ u, Takes c u c' ∧ Builds (.statement s.bare) (word :: u) := by
  obtain ⟨condition, body, c₁, hcondition, hc₁, hbody, rfl⟩ := whileTail_accepted hc h
  obtain ⟨u, hu, hd⟩ := expression_derived (hc.ready hs) hcondition
  obtain ⟨v, hv, hblock⟩ := ih.block hc₁ hbody he
  exact ⟨_, hu.trans hv, .whileLoop hn hd hblock⟩

theorem forTail_builds (ih : Building ts fuel) (hs : Spelled ts) {pos : Position} {word : Token}
    (hn : word.is .keyword "for") (hc : c.Clean ts n)
    (h : forTail fuel context pos c = .ok s c') (he : c'.errors = []) :
    ∃ u, Takes c u c' ∧ Builds (.statement s.bare) (word :: u) := by
  obtain ⟨hname, hin, hbegin, iterable, body, c₁, hiterable, hc₁, hbody, rfl⟩ :=
    forTail_accepted hc h
  obtain ⟨u, hu, hd⟩ := expression_derived (hbegin.ready hs) hiterable
  obtain ⟨v, hv, hblock⟩ := ih.block hc₁ hbody he
  have h₁ := takes_next hc.kind (by simp [hname])
  have h₂ := takes_is (c := c.skip 1) hc.kind (by simp) hin
  exact ⟨_, (h₁.trans (h₂.trans hu)).trans hv, .forLoop hn hname hin hd hblock⟩

theorem defTail_builds (ih : Building ts fuel) (hs : Spelled ts) {pos : Position} {word : Token}
    (hn : word.is .keyword "def") (hc : c.Clean ts n) (h : defTail fuel pos c = .ok s c')
    (he : c'.errors = []) : ∃ u, Takes c u c' ∧ Builds (.statement s.bare) (word :: u) := by
  obtain ⟨hname, hopen, hbegin, params, body, c₁, hparams, hc₁, hclose, hc₂, hbody, rfl⟩ :=
    defTail_accepted hc h
  obtain ⟨u, xs, hu, hxs, rfl, hd⟩ := parameters_sound (hbegin.ready hs) hparams
  obtain ⟨v, hv, hblock⟩ := ih.block hc₂ hbody he
  have h₁ := takes_next hc.kind (by simp [hname])
  have h₂ := takes_is (c := c.skip 1) hc.kind (by simp) hopen
  have h₃ := takes_is hc₁.kind (by simp) hclose
  refine ⟨_, h₁.trans (h₂.trans (hu.trans (h₃.trans hv))), ?_⟩
  simpa [Node.bare] using Builds.function hn hname hopen hxs (hd List.nodup_nil) hclose hblock

theorem statement_builds (ih : Building ts fuel) (hs : Spelled ts) (hc : c.Clean ts n)
    (h : statement (fuel + 1) context c = .ok s c') (he : c'.errors = []) :
    ∃ u, Takes c u c' ∧ Builds (.statement s.bare) u := by
  have hready := hc.ready hs
  have hsimple (h : simpleStatement fuel c = .ok s c') := simpleStatement_builds hready h
  rw [statement_succ] at h
  by_cases hk : c.next.kind = .keyword
  · rw [if_pos hk] at h
    have hword {lexeme : String} {x : Rule Node} (hl : c.next.lexeme = lexeme)
        (htail : ∀ {c₁ : Cursor}, c.next.is .keyword lexeme = true → c₁.Clean ts n →
          x c₁ = .ok s c' → ∃ u, Takes c₁ u c' ∧ Builds (.statement s.bare) (c.next :: u))
        (h : (discard advance >>= fun _ => x) c = .ok s c') :
        ∃ u, Takes c u c' ∧ Builds (.statement s.bare) u := by
      have hn := is_iff.mpr ⟨hk, hl⟩
      obtain ⟨u, hu, hbuilds⟩ := htail hn (hc.skip_is hn trivial) h
      exact ⟨_, (takes_is hc.kind (by simp) hn).trans hu, hbuilds⟩
    have hloop {lexeme : String} {build : Place → Node} (hl : c.next.lexeme = lexeme)
        (hbuild : ∀ {w line : Token}, w.is .keyword lexeme → line.kind = .newline →
          Builds (.statement (build c.next.pos).bare) [w, line])
        (h : loopStatement context build c = .ok s c') :
        ∃ u, Takes c u c' ∧ Builds (.statement s.bare) u := by
      rw [loopStatement_apply] at h
      split at h
      · exact word_builds hready (is_iff.mpr ⟨hk, hl⟩) hbuild h
      · cases h
    unfold wordRule at h
    split_ifs at h with hif hwhile hfor hdef hreturn hbreak hcontinue hpass hdel
    · exact hword hif (fun hn hc h => ifTail_builds ih hs hn hc h he) h
    · exact hword hwhile (fun hn hc h => whileTail_builds ih hs hn hc h he) h
    · exact hword hfor (fun hn hc h => forTail_builds ih hs hn hc h he) h
    · exact hword hdef (fun hn hc h => defTail_builds ih hs hn hc h he) h
    · exact returnStatement_builds hready (is_iff.mpr ⟨hk, hreturn⟩) h
    · exact hloop hbreak .breaks h
    · exact hloop hcontinue .continues h
    · rw [passStatement_apply] at h
      exact word_builds hready (is_iff.mpr ⟨hk, hpass⟩) .passes h
    · exact deleteStatement_builds hready (is_iff.mpr ⟨hk, hdel⟩) h
    · exact hsimple h
  · rw [if_neg hk] at h
    split at h
    · cases h
    · exact hsimple h

theorem building (hs : Spelled ts) (fuel : Nat) : Building ts fuel := by
  induction fuel with
  | zero => constructor <;> intros <;> next h _ => cases h
  | succ fuel ih =>
    exact ⟨fun hc => statements_build ih hc, fun hc => statement_builds ih hs hc,
      fun hc => block_builds ih hc, fun hc => elifs_build ih hs hc⟩

/-- The tokens of a source that is accepted, up to the END, are those of its statements. -/
theorem accepted_builds {source : String} {program : Node}
    (h : parseProgram source = .ok program) : ∃ ss body stop,
      program = .program Position.start ss ∧ tokenize source = .ok (body ++ [stop]) ∧
      stop.kind = .stop ∧ Builds (.statements (Node.bareList ss)) body := by
  obtain ⟨ts, ss, c', hts, rfl, hss, herrors⟩ := accepted_statements h
  have hclean := source_clean hts
  obtain ⟨u, hu, hbuilds⟩ :=
    (building (Lexer.operators_spelled hts) _).statements hclean (by simp) hss herrors
  have hend := statements_end hss
  obtain ⟨body, stop, rfl, hstop, -⟩ := Lexer.tokenize_nested hts
  rw [ofTokens_concat hstop] at hu hclean
  have hrest := hu.rest
  have hnil : c'.rest = [] := by
    cases hr : c'.rest with
    | nil => rfl
    | cons t rest =>
      -- no END stands among the tokens before the last
      have hk : t.kind = .stop := by simpa [Cursor.next, hr] using hend
      exact absurd hk (hclean.inner t (by rw [hrest, hr]; simp))
  obtain rfl : body = u := by simpa [hnil] using hrest
  exact ⟨ss, body, stop, rfl, hts, hstop, hbuilds⟩

end Parser

end Offside
