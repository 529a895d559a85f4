import Offside.Proofs.Parser.Longer
import Offside.Proofs.Parser.StatementFuel

/-!
Statements in a longer list. Each rule for statements reads from a longer list what it reads from a
list without an error, unless the tokens that are added go on with its last statement; so the
statements of a list come before those of the tokens that follow it.
-/

namespace Offside.Parser

variable {α : Type} {more : List Token} {stop : Token} {c c₁ : Cursor}

/-! ### Statements of one line -/

theorem simpleStatement_eq (fuel : Nat) :
    simpleStatement fuel =
      (peek >>= fun start => expression fuel loosest >>= simpleTail fuel start.pos) :=
  funext fun c => simpleStatement_apply fuel c

theorem simpleStatement_lined (fuel : Nat) (c : Cursor) :
    EndsLined more stop (simpleStatement fuel) c := by
  rw [simpleStatement_eq]
  refine endsLined_peek (endsLined_bind (expression_inline _ _) fun expr c₁ => ?_)
  unfold simpleTail
  refine endsLined_peek (endsLined_ite (fun ha => ?_) fun _ => endsLined_endOfLine _)
  refine endsLined_ite (fun _ => ?_) fun _ => endsLined_fail
  have hk : c₁.next.kind = .operator := by simpa using (Bool.and_eq_true_iff.mp ha).1
  refine endsLined_advance (hk ▸ trivial) ?_
  exact endsLined_bind (expression_inline _ _) fun _ _ => endsLined_endOfLine _

theorem returnStatement_eq (fuel : Nat) (context : Context) :
    returnStatement fuel context = (peek >>= fun keyword =>
      if context.inFunction then discard advance >>= fun _ => peek >>= fun t =>
        if t.kind = .newline then endOfLine >>= fun _ => pure (.returnStmt keyword.pos .hole)
        else expression fuel loosest >>= fun value => endOfLine >>= fun _ =>
          pure (.returnStmt keyword.pos value)
      else fail .outsideFunction keyword.pos) := by
  funext c
  rw [returnStatement_apply, peek_bind]
  split
  · rw [discard_advance_bind, peek_bind]
    split <;> rfl
  · rfl

theorem returnStatement_lined (fuel : Nat) (context : Context) (hn : c.next.kind.OfLine) :
    EndsLined more stop (returnStatement fuel context) c := by
  rw [returnStatement_eq]
  refine endsLined_peek (endsLined_ite (fun _ => endsLined_advance hn ?_) fun _ => endsLined_fail)
  refine endsLined_peek (endsLined_ite (fun _ => endsLined_endOfLine _) fun _ => ?_)
  exact endsLined_bind (expression_inline _ _) fun _ _ => endsLined_endOfLine _

theorem loopStatement_eq (context : Context) (build : Place → Node) :
    loopStatement context build = (peek >>= fun keyword =>
      if context.inLoop then
        discard advance >>= fun _ => endOfLine >>= fun _ => pure (build keyword.pos)
      else fail (.outsideLoop keyword.lexeme) keyword.pos) := by
  funext c
  rw [loopStatement_apply, peek_bind]
  split <;> rfl

theorem loopStatement_lined (context : Context) (build : Place → Node) (hn : c.next.kind.OfLine) :
    EndsLined more stop (loopStatement context build) c := by
  rw [loopStatement_eq]
  refine endsLined_peek (endsLined_ite (fun _ => ?_) fun _ => endsLined_fail)
  exact endsLined_advance hn (endsLined_endOfLine _)

theorem passStatement_eq :
    passStatement = (peek >>= fun keyword =>
      discard advance >>= fun _ => endOfLine >>= fun _ => pure (.passStmt keyword.pos)) := rfl

theorem passStatement_lined (hn : c.next.kind.OfLine) : EndsLined more stop passStatement c := by
  rw [passStatement_eq]
  exact endsLined_peek (endsLined_advance hn (endsLined_endOfLine _))

theorem deleteStatement_eq (fuel : Nat) :
    deleteStatement fuel = (peek >>= fun keyword =>
      discard advance >>= fun _ => expression fuel loosest >>= deleteTail keyword.pos) :=
  funext fun c => deleteStatement_apply fuel c

theorem deleteStatement_lined (fuel : Nat) (hn : c.next.kind.OfLine) :
    EndsLined more stop (deleteStatement fuel) c := by
  rw [deleteStatement_eq]
  refine endsLined_peek (endsLined_advance hn ?_)
  refine endsLined_bind (expression_inline _ _) fun target c₁ => ?_
  unfold deleteTail
  split
  · exact endsLined_endOfLine _
  · exact endsLined_fail

/-! ### Blocks -/

/-- Passing over a token that ends a line, or that begins or ends a block. -/
theorem keeps_expectKind {kind : TokenKind} {what : String} {f : Unit → Rule α}
    (hline : ¬ kind.OfLine) (hkind : kind ≠ .stop) (hf : Keeps more stop (f ()) (c.skip 1)) :
    Keeps more stop (discard (expectKind kind what) >>= f) c := by
  intro hs a c₁ h
  rw [expectKind_discard_bind] at h
  split at h
  · next hn =>
    obtain ⟨hs₁, hkept⟩ := hf hs h
    have hstop : c.next.kind ≠ .stop := hn.symm ▸ hkind
    refine ⟨hs₁, fun he => ⟨(hkept he).errors, fun hloose => (hkept he).loose ?_, ?_⟩⟩
    · rw [(takes_next hs hstop).rest, List.singleton_append] at hloose
      exact loose_tail hloose (.inl (hn.symm ▸ hline))
    · intro c' hw
      rw [expectKind_discard_bind, if_pos ((hw.next_kind hstop).trans hn)]
      exact (hkept he).wider (hw.after_skip hstop)
  · cases h

/-- The start of a block: a colon at the end of its line. -/
theorem endsLined_header {header : String} {f : Unit → Rule α}
    (hf : ∀ c, Keeps more stop (f ()) c) :
    EndsLined more stop (discard (expect .delimiter ":" ("':' after " ++ header)) >>= fun _ =>
      discard (expectKind .newline ("end of line after " ++ header ++ ":")) >>= f) c := by
  refine endsLined_expect trivial fun hs a c₁ h => ?_
  obtain ⟨hs₁, hkept⟩ := keeps_expectKind id (by decide) (hf _) hs h
  rw [expectKind_discard_bind] at h
  split at h
  · next hn =>
    have hcons := (takes_next hs (show (c.skip 1).next.kind ≠ .stop by simp [hn])).rest
    exact ⟨hs₁, fun he => ⟨⟨[], _, _, hcons, List.forall_mem_nil _, hn⟩, hkept he⟩⟩
  · cases h

/-- A branch that may follow. -/
theorem keeps_accept {w : String} {x y : Rule α} (hmore : NoBranch (more.headD stop))
    (hw : w ∈ ["elif", "else"]) (hx : EndsLined more stop x (c.skip 1))
    (hy : Keeps more stop y c) :
    Keeps more stop (accept .keyword w >>= fun b => if b then x else y) c := by
  intro hs a c₁ h
  rw [accept_bind] at h
  split at h
  · next hn =>
    have hline : c.next.kind.OfLine := (is_iff.mp hn).1 ▸ trivial
    obtain ⟨hs₁, hkept⟩ := hx hs h
    refine ⟨hs₁, fun he => ?_⟩
    obtain ⟨hl, hx⟩ := hkept he
    obtain ⟨hlined, hkept⟩ := kept_advance (f := fun _ => x) hline hl hx
    refine ⟨hkept.errors, hkept.loose, fun {c'} hw' => ?_⟩
    rw [accept_bind, hw'.next_eq hlined.next.1 hlined.next.2, if_pos hn]
    exact hkept.wider hw'
  · next hn =>
    obtain ⟨hs₁, hkept⟩ := hy hs h
    refine ⟨hs₁, fun he => ⟨(hkept he).errors, (hkept he).loose, fun {c'} hw' => ?_⟩⟩
    rw [accept_bind, hw'.noBranch hmore hw (Bool.not_eq_true _ ▸ hn)]
    exact (hkept he).wider hw'

/-- The rules for statements in a longer list. -/
structure KeepsStatements (more : List Token) (stop : Token) (fuel : Nat) : Prop where
  statements : ∀ context c, c.stop.kind = .stop → ∀ ⦃ss c₁⦄,
    statements fuel context false c = .ok ss c₁ → c₁.stop.kind = .stop ∧ (c₁.errors = [] →
      c.errors = [] ∧
      (c₁.next.kind = .dedent → Kept more stop (statements fuel context false) ss c c₁))
  statement : ∀ context c, EndsLined more stop (statement fuel context) c
  block : ∀ context header c, EndsLined more stop (block fuel context header) c
  elifs : ∀ context branches c, Keeps more stop (elifs fuel context branches) c

variable {fuel : Nat}

theorem ifTail_lined (hmore : NoBranch (more.headD stop)) (ih : KeepsStatements more stop fuel)
    (context : Context) (p : Position) (c : Cursor) :
    EndsLined more stop (ifTail fuel context p) c := by
  unfold ifTail
  refine endsLined_bind (expression_inline _ _) fun condition c₁ => ?_
  refine endsLined_then (ih.block _ _ _) fun body c₂ => ?_
  refine keeps_bind (ih.elifs _ _ _) fun branches c₃ => ?_
  refine keeps_accept hmore (by simp) ?_ (keeps_pure _)
  exact endsLined_then (ih.block _ _ _) fun _ _ => keeps_pure _

theorem whileTail_lined (ih : KeepsStatements more stop fuel) (context : Context) (p : Position)
    (c : Cursor) : EndsLined more stop (whileTail fuel context p) c := by
  unfold whileTail
  refine endsLined_bind (expression_inline _ _) fun condition c₁ => ?_
  exact endsLined_then (ih.block _ _ _) fun _ _ => keeps_pure _

theorem forTail_lined (ih : KeepsStatements more stop fuel) (context : Context) (p : Position)
    (c : Cursor) : EndsLined more stop (forTail fuel context p) c := by
  unfold forTail
  refine endsLined_expectKind trivial (endsLined_expect trivial ?_)
  refine endsLined_bind (expression_inline _ _) fun iterable c₁ => ?_
  exact endsLined_then (ih.block _ _ _) fun _ _ => keeps_pure _

theorem defTail_lined (ih : KeepsStatements more stop fuel) (p : Position) (c : Cursor) :
    EndsLined more stop (defTail fuel p) c := by
  unfold defTail
  refine endsLined_expectKind trivial (endsLined_expect trivial ?_)
  refine endsLined_bind (parameters_inline _ (by decide) _ _) fun params c₁ => ?_
  refine endsLined_expect trivial (endsLined_then (ih.block _ _ _) fun _ _ => keeps_pure _)

theorem statement_eq (fuel : Nat) (context : Context) :
    statement (fuel + 1) context = (peek >>= fun t =>
      if t.kind = .keyword then wordRule fuel context t
      else if t.kind = .indent then fail .strayIndent t.pos
      else simpleStatement fuel) := by
  funext c
  rw [statement_succ, peek_bind]
  split
  · rfl
  · split <;> rfl

theorem statement_lined (hmore : NoBranch (more.headD stop)) (ih : KeepsStatements more stop fuel)
    (context : Context) (c : Cursor) : EndsLined more stop (statement (fuel + 1) context) c := by
  have hsimple : EndsLined more stop (simpleStatement fuel) c := simpleStatement_lined fuel c
  rw [statement_eq]
  refine endsLined_peek (endsLined_ite (fun hk => ?_) fun _ => ?_)
  · have hn : c.next.kind.OfLine := hk ▸ trivial
    unfold wordRule
    refine endsLined_ite (fun _ => endsLined_advance hn (ifTail_lined hmore ih _ _ _)) fun _ => ?_
    refine endsLined_ite (fun _ => endsLined_advance hn (whileTail_lined ih _ _ _)) fun _ => ?_
    refine endsLined_ite (fun _ => endsLined_advance hn (forTail_lined ih _ _ _)) fun _ => ?_
    refine endsLined_ite (fun _ => endsLined_advance hn (defTail_lined ih _ _)) fun _ => ?_
    refine endsLined_ite (fun _ => returnStatement_lined _ _ hn) fun _ => ?_
    refine endsLined_ite (fun _ => loopStatement_lined _ _ hn) fun _ => ?_
    refine endsLined_ite (fun _ => loopStatement_lined _ _ hn) fun _ => ?_
    refine endsLined_ite (fun _ => passStatement_lined hn) fun _ => ?_
    exact endsLined_ite (fun _ => deleteStatement_lined _ hn) fun _ => hsimple
  · exact endsLined_ite (fun _ => endsLined_fail) fun _ => hsimple

theorem block_lined (ih : KeepsStatements more stop fuel) (context : Context) (header : String)
    (c : Cursor) : EndsLined more stop (block (fuel + 1) context header) c := by
  rw [show block (fuel + 1) context header = _ from funext (block_succ fuel context header)]
  refine endsLined_header fun c₁ => keeps_expectKind id (by decide) fun hs body c₂ h => ?_
  obtain ⟨ss, c₃, hss, hlast⟩ := bind_ok_iff.mp h
  obtain ⟨hs₃, hbody⟩ := ih.statements _ _ hs hss
  have hn : c₃.next.kind = .dedent := by
    rw [expectKind_discard_bind] at hlast
    split at hlast
    · assumption
    · cases hlast
  have hpure (c : Cursor) : Keeps more stop (pure ss : Rule (List Node)) c := keeps_pure ss
  obtain ⟨hs₂, hend⟩ := keeps_expectKind id (by decide) (hpure _) hs₃ hlast
  refine ⟨hs₂, fun he => ?_⟩
  exact ((hbody (hend he).errors).2 hn).bind (hend he)

theorem elifs_eq (fuel : Nat) (context : Context) (branches : List (Node × List Node)) :
    elifs (fuel + 1) context branches = (accept .keyword "elif" >>= fun b => if b then
      expression fuel loosest >>= fun condition => block fuel context "'elif' condition" >>=
        fun body => elifs fuel context (branches ++ [(condition, body)])
      else pure branches) := by
  funext c
  rw [elifs_succ, accept_bind]
  split <;> rfl

theorem elifs_keep (hmore : NoBranch (more.headD stop)) (ih : KeepsStatements more stop fuel)
    (context : Context) (branches : List (Node × List Node)) (c : Cursor) :
    Keeps more stop (elifs (fuel + 1) context branches) c := by
  rw [elifs_eq]
  refine keeps_accept hmore (by simp) ?_ (keeps_pure _)
  refine endsLined_bind (expression_inline _ _) fun condition c₁ => ?_
  exact endsLined_then (ih.block _ _ _) fun body c₂ => ih.elifs _ _ _

/-! ### Lists of statements -/

/-- A statement that is read is read with any fuel that is enough. -/
theorem statement_enough {context : Context} {s : Node} {n : Nat} (hs : c.stop.kind = .stop)
    (h : statement fuel context c = .ok s c₁) (hf : 4 * c.rest.length + 4 ≤ n) :
    statement n context c = .ok s c₁ ∧ Ahead 1 c c₁ := by
  have hmono {m : Nat} (hm : m ≤ max fuel n) :=
    refines_le (fun k c => (statements_monotone k).statement context c) hm c
  have hfed := (statements_sufficient n).statement context c hs hf
  have hmax : statement (max fuel n) context c = .ok s c₁ := by
    rcases hmono (Nat.le_max_left fuel n) with heq | ⟨c₂, he⟩
    · rw [← heq, h]
    · cases h.symm.trans he
  rcases hmono (Nat.le_max_right fuel n) with heq | ⟨c₂, he⟩
  · rw [heq, hmax] at hfed
    exact ⟨heq.trans hmax, hfed⟩
  · rw [he] at hfed
    exact absurd rfl hfed.1

/-- A statement that fails leaves the end of the list in place. -/
theorem problem_ahead {context : Context} {e : ParseError} (hs : c.stop.kind = .stop)
    (h : statement fuel context c = .error (.problem e) c₁) : Ahead 0 c c₁ := by
  have hmono := refines_le (fun k c => (statements_monotone k).statement context c)
    (Nat.le_max_left fuel (4 * c.rest.length + 4)) c
  have hfed := (statements_sufficient _).statement context c hs
    (Nat.le_max_right fuel (4 * c.rest.length + 4))
  rcases hmono with heq | ⟨c₂, he⟩
  · rw [← heq, h] at hfed
    exact hfed.2
  · cases h.symm.trans he

/-- A list of statements begins with one that is read or with one that is passed over. -/
theorem statementsFrom_inv {context : Context} {topLevel : Bool} {ss : List Node}
    (hstop : c.next.kind ≠ .stop) (hdedent : c.next.kind ≠ .dedent)
    (h : statementsFrom fuel context topLevel c = .ok ss c₁) :
    (∃ s d rest, statement fuel context c = .ok s d ∧
      statements fuel context topLevel d = .ok rest c₁ ∧ ss = s :: rest) ∨
    ∃ e d, statement fuel context c = .error (.problem e) d ∧
      statements fuel context topLevel (d.recovered e) = .ok ss c₁ := by
  rw [statementsFrom, if_neg hstop, if_neg hdedent] at h
  obtain ⟨s, d, hs, hrest⟩ := bind_ok_iff.mp h
  rw [recovering_apply] at hs
  cases hstatement : statement fuel context c with
  | ok t d' =>
    rw [hstatement] at hs
    cases hs
    obtain ⟨rest, d', hrest, hlast⟩ := bind_ok_iff.mp hrest
    cases hlast
    exact .inl ⟨t, d, rest, rfl, hrest, rfl⟩
  | error e d' =>
    rw [hstatement] at hs
    cases e with
    | problem e =>
      cases hs
      exact .inr ⟨e, d', rfl, hrest⟩
    | fault f => cases hs
    | starved => cases hs

theorem statementsFrom_ok {context : Context} {topLevel : Bool} {s : Node} {d : Cursor}
    (hstop : c.next.kind ≠ .stop) (hdedent : c.next.kind ≠ .dedent)
    (h : statement fuel context c = .ok s d) :
    statementsFrom fuel context topLevel c =
      (statements fuel context topLevel >>= fun rest => pure (s :: rest)) d := by
  have hrecovering : recovering (statement fuel context) c = .ok (some s) d := by
    rw [recovering_apply, h]
  rw [statementsFrom, if_neg hstop, if_neg hdedent, bind_ok hrecovering]

theorem loose_afterNewlines (h : Loose c.rest) : Loose c.afterNewlines.rest := by
  unfold Cursor.afterNewlines
  dsimp only
  generalize c.rest = ts at h
  induction ts with
  | nil => exact h
  | cons t ts ih =>
    rw [List.dropWhile_cons]
    split
    · next ht =>
      have hline : ¬ t.kind.OfLine := by
        rw [eq_of_beq ht]
        exact id
      exact ih (loose_tail h (.inl hline))
    · exact h

/-- The statements of a block, up to its DEDENT. -/
theorem statements_keep (ih : KeepsStatements more stop fuel) (context : Context) (c : Cursor)
    (hs : c.stop.kind = .stop) ⦃ss : List Node⦄ ⦃c₁ : Cursor⦄
    (h : statements (fuel + 1) context false c = .ok ss c₁) :
    c₁.stop.kind = .stop ∧ (c₁.errors = [] → c.errors = [] ∧
      (c₁.next.kind = .dedent → Kept more stop (statements (fuel + 1) context false) ss c c₁)) := by
  have hs' : c.afterNewlines.stop.kind = .stop := hs
  rw [statements_succ] at h
  by_cases hstop : c.afterNewlines.next.kind = .stop
  · rw [statementsFrom, if_pos hstop] at h
    cases h
    refine ⟨hs, fun he => ⟨he, fun hn => ?_⟩⟩
    cases hstop.symm.trans hn
  · by_cases hdedent : c.afterNewlines.next.kind = .dedent
    · rw [statementsFrom, if_neg hstop, if_pos hdedent] at h
      cases h
      refine ⟨hs, fun he => ⟨he, fun _ => ⟨he, loose_afterNewlines, fun {c'} hw => ?_⟩⟩⟩
      have hw := hw.afterNewlines hstop
      have hkind := (hw.next_kind hstop).trans hdedent
      refine ⟨_, ?_, hw⟩
      rw [statements_succ, statementsFrom, if_neg (by simp [hkind]), if_pos hkind]
      rfl
    · rcases statementsFrom_inv hstop hdedent h with ⟨s, d, rest, hd, hrest, rfl⟩ | ⟨e, d, hd, hrest⟩
      · obtain ⟨hs₁, hstatement⟩ := ih.statement _ _ hs' hd
        obtain ⟨hs₂, hstatements⟩ := ih.statements _ _ hs₁ hrest
        refine ⟨hs₂, fun he => ?_⟩
        obtain ⟨hed, hlater⟩ := hstatements he
        obtain ⟨hl, hkept⟩ := hstatement hed
        refine ⟨hkept.errors, fun hn => ⟨hkept.errors, fun hloose => ?_, fun {c'} hw => ?_⟩⟩
        · exact (hlater hn).loose (hkept.loose (loose_afterNewlines hloose))
        · have hw := hw.afterNewlines hstop
          obtain ⟨d', hd', hw₁⟩ := hkept.wider hw
          obtain ⟨c₁', hrest', hw₂⟩ := (hlater hn).wider hw₁
          have hnext := hw.next_eq hstop hdedent
          refine ⟨c₁', ?_, hw₂⟩
          rw [statements_succ, statementsFrom_ok (hnext ▸ hstop) (hnext ▸ hdedent) hd',
            bind_ok hrest']
          rfl
      · have hs₁ : d.stop.kind = .stop := (problem_ahead hs' hd).stop_kind hs'
        obtain ⟨hs₂, hlater⟩ := ih.statements _ (d.recovered e) hs₁ hrest
        refine ⟨hs₂, fun he => ?_⟩
        have hnone : d.errors ++ [e] = [] := (hlater he).1
        simp at hnone

theorem statements_kept (hmore : NoBranch (more.headD stop)) (fuel : Nat) :
    KeepsStatements more stop fuel := by
  induction fuel with
  | zero =>
    refine ⟨?_, ?_, ?_, ?_⟩
    · rintro context c hs ss c₁ ⟨⟩
    · rintro context c hs s c₁ ⟨⟩
    · rintro context header c hs body c₁ ⟨⟩
    · rintro context branches c hs bs c₁ ⟨⟩
  | succ fuel ih =>
    exact ⟨statements_keep ih, statement_lined hmore ih, block_lined ih, elifs_keep hmore ih⟩

/-! ### Statements in front of others -/

/-- Some statements, and then those of an outcome. -/
def prepended (ss : List Node) : Outcome (List Node) → Outcome (List Node)
  | .ok rest c => .ok (ss ++ rest) c
  | .error e c => .error e c

theorem prepended_cons (s : Node) (ss : List Node) (x : Rule (List Node)) {y : Outcome (List Node)}
    (h : x c = prepended ss y) : (x >>= fun rest => pure (s :: rest)) c = prepended (s :: ss) y := by
  rw [bind_apply, h]
  cases y <;> rfl

/-- With enough fuel, how much of it there is does not matter. -/
theorem statements_enough {context : Context} {topLevel : Bool} {m n : Nat}
    (hs : c.stop.kind = .stop) (hm : 4 * c.rest.length + 5 ≤ m) (hn : m ≤ n) :
    statements m context topLevel c = statements n context topLevel c := by
  have hfed := (statements_sufficient m).statements context topLevel c hs hm
  have hmono := refines_le (fun k c => (statements_monotone k).statements context topLevel c) hn c
  rcases hmono with heq | ⟨c₂, he⟩
  · exact heq
  · rw [he] at hfed
    exact absurd rfl hfed.1

theorem Grown.length_le {ts us : List Token} (h : Grown more ts us) : more.length ≤ us.length := by
  induction h with
  | nil => exact Nat.le_refl _
  | same _ ih => exact Nat.le_succ_of_le ih
  | dedent _ _ _ ih => exact Nat.le_succ_of_le ih

/-- After ends of lines only, the tokens that follow are next. -/
theorem Wider.over {c' : Cursor} (h : Wider more stop c c') (he : c.errors = [])
    (hc : c.afterNewlines.rest = []) :
    c'.afterNewlines = Cursor.afterNewlines ⟨more, stop, []⟩ := by
  obtain ⟨rest', stop', errors'⟩ := c'
  obtain rfl : stop' = stop := h.stop
  obtain rfl : errors' = [] := h.errors.trans he
  have hrest := h.rest
  unfold Cursor.afterNewlines at hc ⊢
  dsimp only at hrest hc ⊢
  generalize c.rest = ts at hrest hc
  clear h
  congr 1
  induction hrest with
  | nil => rfl
  | @same t ts us hrest ih =>
    rw [List.dropWhile_cons] at hc ⊢
    split at hc
    · next ht =>
      rw [if_pos ht]
      exact ih hc
    · cases hc
  | @dedent t u ts us ht hu hrest =>
    rw [List.dropWhile_cons, if_neg (by simp [ht])] at hc
    cases hc

theorem Cursor.rest_nil (hc : ∀ t ∈ c.rest, t.kind ≠ .stop) (hn : c.next.kind = .stop) :
    c.rest = [] := by
  unfold Cursor.next at hn
  cases hr : c.rest with
  | nil => rfl
  | cons t ts =>
    rw [hr] at hc hn
    exact absurd hn (hc t List.mem_cons_self)

theorem not_loose_nil : ¬ Loose [] := by
  rintro ⟨l, t, ds, h, -, -⟩
  simp at h

variable {ss : List Node}

/-- What is read without an error up to the end of a list comes before what is read from the tokens
that follow, and the last line of the list has an end. -/
theorem statements_append (hmore : NoBranch (more.headD stop)) (hs' : stop.kind = .stop)
    (context : Context) (hs : c.stop.kind = .stop) (hc : ∀ t ∈ c.rest, t.kind ≠ .stop)
    (h : statements fuel context true c = .ok ss c₁) (he : c₁.errors = []) :
    c.errors = [] ∧ ¬ Loose c.rest ∧ ∀ {c'}, Wider more stop c c' →
      ∀ {n}, 4 * c'.rest.length + 5 ≤ n → statements n context true c' =
        prepended ss (statements n context true ⟨more, stop, []⟩) := by
  induction fuel generalizing c ss with
  | zero => cases h
  | succ fuel ih =>
    have hs₁ : c.afterNewlines.stop.kind = .stop := hs
    have hc₁ : ∀ t ∈ c.afterNewlines.rest, t.kind ≠ .stop :=
      fun t ht => hc t ((List.dropWhile_suffix _).subset ht)
    rw [statements_succ] at h
    by_cases hstop : c.afterNewlines.next.kind = .stop
    · have hnil := Cursor.rest_nil hc₁ hstop
      rw [statementsFrom, if_pos hstop] at h
      cases h
      refine ⟨he, fun hloose => ?_, fun {c'} hw n hn => ?_⟩
      · exact not_loose_nil (hnil ▸ loose_afterNewlines hloose)
      · obtain ⟨n, rfl⟩ : ∃ k, n = k + 1 := ⟨n - 1, by omega⟩
        rw [statements_succ, statements_succ, hw.over he hnil]
        cases statementsFrom n context true (Cursor.afterNewlines ⟨more, stop, []⟩) <;> rfl
    · by_cases hdedent : c.afterNewlines.next.kind = .dedent
      · rw [statementsFrom, if_neg hstop, if_pos hdedent, if_pos rfl] at h
        have hrest : ∀ t ∈ c.afterNewlines.rest.drop 1, t.kind ≠ .stop :=
          fun t ht => hc₁ t (List.mem_of_mem_drop ht)
        have hnone := (ih (c := (c.afterNewlines.recording _).skip 1) hs hrest h).1
        simp [Cursor.skip, Cursor.recording] at hnone
      · rcases statementsFrom_inv hstop hdedent h with ⟨s, d, rest, hd, hrest, rfl⟩ | ⟨e, d, hd, hrest⟩
        · obtain ⟨-, ha⟩ := statement_enough hs₁ hd (Nat.le_refl _)
          obtain ⟨hed, hloose, hlater⟩ := ih (ha.stop_kind hs₁)
            (fun t ht => hc₁ t (ha.suffix.subset ht)) hrest
          obtain ⟨hl, hkept⟩ := ((statements_kept hmore fuel).statement _ _ hs₁ hd).2 hed
          refine ⟨hkept.errors, fun h => hloose (hkept.loose (loose_afterNewlines h)), ?_⟩
          intro c' hw n hn
          obtain ⟨n, rfl⟩ : ∃ k, n = k + 1 := ⟨n - 1, by omega⟩
          have hnewlines := (afterNewlines_ahead c').length
          have hw₁ := hw.afterNewlines hstop
          have hnext := hw₁.next_eq hstop hdedent
          have hs₂ : c'.afterNewlines.stop.kind = .stop := hw₁.stop ▸ hs'
          obtain ⟨d', hd', hw₂⟩ := hkept.wider hw₁
          obtain ⟨hd', ha'⟩ := statement_enough hs₂ hd' (show _ ≤ n by omega)
          have hlength := ha'.length
          have hlen := hw₂.rest.length_le
          rw [statements_succ, statementsFrom_ok (hnext ▸ hstop) (hnext ▸ hdedent) hd',
            ← statements_enough hs' (show 4 * more.length + 5 ≤ n by omega) (Nat.le_succ n)]
          exact prepended_cons s rest _ (hlater hw₂ (by omega))
        · have ha := problem_ahead hs₁ hd
          have hsuffix := (dropStatement_suffix d.rest).trans ha.suffix
          have hnone := (ih (c := d.recovered e) (ha.stop_kind hs₁)
            (fun t ht => hc₁ t (hsuffix.subset ht)) hrest).1
          simp [Cursor.recovered, Cursor.recording] at hnone

end Offside.Parser
