import Offside.Proofs.Parser.Completeness
import Offside.Proofs.Parser.StatementRule
import Offside.Proofs.Printer.Expression

/-!
Printed statements. Each rule for a statement reads exactly the lines and blocks that are printed
for it, whatever statement follows.
-/

namespace Offside.Printer

open Grammar Lexer Offside.Parser

variable {c c' c₁ : Cursor} {u v : List Token} {e s : Node} {context : Context}

/-- What follows a statement is no further branch of it. -/
def Done (c : Cursor) : Prop :=
  c.next.is .keyword "elif" = false ∧ c.next.is .keyword "else" = false

/-- Reading a statement from its printed lines, without its place. -/
def ReadsAs (context : Context) (s : Node) : Prop :=
  ∀ u c c', Spells u (Layout.wordsAll (layout s)) → Takes c u c' → Done c' →
    ∃ s', s'.bare = s.bare ∧ Yields (fun fuel => statement fuel context) c s' c'

theorem rendered_read {ps : List Piece} (h : Renders .test ps e) (hu : Spells u (wordsOf ps))
    (ht : Takes c u c') (hf : Follow 0 c') :
    ∃ e', e'.bare = e ∧ Yields (fun fuel => expression fuel loosest) c e' c' :=
  expression_complete (derives_mono (h.means u hu) fun _ _ _ => leaf_readable) ht hf

theorem rendered_opens {ps : List Piece} (h : Renders .test ps e) (hu : Spells u (wordsOf ps)) :
    ∃ t rest, u = t :: rest ∧ Opens .test t :=
  derives_headed (derives_mono (h.means u hu) fun _ _ _ => leaf_readable)

theorem expression_read (h : e.Expression) (hu : Spells u (wordsOf (pieces e)))
    (ht : Takes c u c') (hf : Follow 0 c') :
    ∃ e', e'.bare = e.bare ∧ Yields (fun fuel => expression fuel loosest) c e' c' :=
  rendered_read (expression_renders h) hu ht hf

theorem expression_opens (h : e.Expression) (hu : Spells u (wordsOf (pieces e))) :
    ∃ t rest, u = t :: rest ∧ Opens .test t :=
  rendered_opens (expression_renders h) hu

/-! ### Lines and blocks -/

theorem spells_line {ps : List Piece} (h : Spells u (Layout.wordsAll [.line ps])) :
    ∃ v t, u = v ++ [t] ∧ Spells v (wordsOf ps) ∧ t.kind = .newline := by
  simp only [Layout.wordsAll, Layout.words, List.append_nil] at h
  obtain ⟨v, w, rfl, hv, hw⟩ := spells_append h
  obtain ⟨t, w, rfl, ht, hw⟩ := spells_cons hw
  obtain rfl := spells_nil hw
  exact ⟨v, t, rfl, hv, word_kind ht⟩

/-- The tokens of a block: the end of its header's line, an INDENT, its words and a DEDENT. -/
structure Blocked (u : List Token) (body : List Layout) : Prop where
  parts : ∃ newline indent v dedent, u = newline :: indent :: (v ++ [dedent]) ∧
    newline.kind = .newline ∧ indent.kind = .indent ∧ dedent.kind = .dedent ∧
    Spells v (Layout.wordsAll body)

theorem spells_block {hs : List Piece} {body ls : List Layout}
    (h : Spells u (Layout.wordsAll (.block hs body :: ls))) :
    ∃ v w x, u = v ++ (w ++ x) ∧ Spells v (wordsOf hs) ∧ Blocked w body ∧
      Spells x (Layout.wordsAll ls) := by
  simp only [Layout.wordsAll, Layout.words] at h
  obtain ⟨y, x, rfl, hy, hx⟩ := spells_append h
  obtain ⟨v, w, rfl, hv, hw⟩ := spells_append hy
  obtain ⟨newline, w, rfl, hn, hw⟩ := spells_cons hw
  obtain ⟨indent, w, rfl, hi, hw⟩ := spells_cons hw
  obtain ⟨b, d, rfl, hb, hd⟩ := spells_append hw
  obtain ⟨dedent, d, rfl, hk, hd⟩ := spells_cons hd
  obtain rfl := spells_nil hd
  exact ⟨v, _, x, List.append_assoc _ _ _, hv,
    ⟨newline, indent, b, dedent, rfl, word_kind hn, word_kind hi, word_kind hk, hb⟩, hx⟩

theorem follow_newline (h : c.next.kind = .newline) : Follow 0 c := by
  refine ⟨fun lexeme _ => by simp [Token.is, h], ?_⟩
  intro l hl
  simp [nextLevel?, binaryOperator?, h] at hl

theorem yields_line {a : Node} {t : Token} (ht : Takes c [t] c') (hk : t.kind = .newline) :
    Yields (fun _ => endOfLine >>= fun _ => pure a) c a c' := by
  refine yields_congr (fun _ => pure a) ?_ (yields_pure a c')
  intro fuel
  rw [endOfLine_bind, if_pos (by rw [ht.next_eq, hk]), ← ht.skip_length]
  rfl

/-- Where statements end: at the end of the input, or of the block they stand in. -/
def Closes (topLevel : Bool) (c : Cursor) : Prop :=
  c.next.kind = .stop ∨ c.next.kind = .dedent ∧ topLevel = false

theorem statements_end {topLevel : Bool} (h : Closes topLevel c) :
    Yields (fun fuel => statements fuel context topLevel) c [] c := by
  refine yields_step (fun _ => pure []) ?_ (yields_pure [] c)
  intro fuel
  have hn : c.next.kind ≠ .newline := by
    rcases h with h | ⟨h, -⟩ <;> simp [h]
  rw [statements_succ, Cursor.afterNewlines_stays hn, statementsFrom]
  rcases h with h | ⟨h, rfl⟩
  · rw [if_pos h]
    rfl
  · rw [if_neg (by simp [h]), if_pos h]
    rfl

theorem closes_done {topLevel : Bool} (h : Closes topLevel c) : Done c := by
  have hk : c.next.kind ≠ .keyword := by
    rcases h with h | ⟨h, -⟩ <;> simp [h]
  exact ⟨by simp [Token.is, hk], by simp [Token.is, hk]⟩

theorem yields_recovering {rule : Nat → Rule Node} (h : Yields rule c s c') :
    Yields (fun fuel => recovering (rule fuel)) c (some s) c' := by
  obtain ⟨n, hn⟩ := h
  refine ⟨n, ?_⟩
  intro fuel hf
  change recovering (rule fuel) c = _
  rw [recovering_apply, hn fuel hf]

theorem statements_cons {topLevel : Bool} {s : Node} {ss : List Node} (hb : Begins c.next)
    (hs : Yields (fun fuel => statement fuel context) c s c₁)
    (hss : Yields (fun fuel => statements fuel context topLevel) c₁ ss c') :
    Yields (fun fuel => statements fuel context topLevel) c (s :: ss) c' := by
  have hk := hb.kind
  simp only [List.mem_cons, List.not_mem_nil, or_false, not_or] at hk
  refine yields_step (fun fuel => recovering (statement fuel context) >>= fun s =>
      s.elim (statements fuel context topLevel) fun s =>
        statements fuel context topLevel >>= fun rest => pure (s :: rest)) ?_
    (yields_bind (yields_recovering hs) (yields_bind hss (yields_pure _ _)))
  intro fuel
  rw [statements_succ, Cursor.afterNewlines_stays hk.1, statementsFrom, if_neg hk.2.2.2, if_neg hk.2.2.1]
  refine congrFun (bind_congr fun s => ?_) c
  cases s <;> rfl

theorem statements_read {topLevel : Bool} {ss : List Node}
    (hread : ∀ s ∈ ss, ReadsAs context s)
    (hbegin : ∀ s ∈ ss, ∀ u, Spells u (Layout.wordsAll (layout s)) →
      ∃ t rest, u = t :: rest ∧ Begins t)
    (hu : Spells u (Layout.wordsAll (layoutAll ss))) (ht : Takes c u c') (hc : Closes topLevel c') :
    ∃ ss', Node.bareList ss' = Node.bareList ss ∧
      Yields (fun fuel => statements fuel context topLevel) c ss' c' := by
  induction ss generalizing u c with
  | nil =>
    obtain rfl := spells_nil hu
    obtain rfl : c = c' := ht.skip_length
    exact ⟨[], rfl, statements_end hc⟩
  | cons s ss ih =>
    rw [layoutAll, Layout.wordsAll_append] at hu
    obtain ⟨x, y, rfl, hx, hy⟩ := spells_append hu
    obtain ⟨c₁, hx', hy'⟩ := ht.split
    obtain ⟨t, rest, rfl, hb⟩ := hbegin s List.mem_cons_self x hx
    obtain ⟨ss', hss, hys⟩ := ih (fun a ha => hread a (List.mem_cons_of_mem s ha))
      (fun a ha => hbegin a (List.mem_cons_of_mem s ha)) hy hy'
    have hdone : Done c₁ := by
      cases ss with
      | nil =>
        obtain rfl := spells_nil hy
        obtain rfl : c₁ = c' := hy'.skip_length
        exact closes_done hc
      | cons a as =>
        rw [layoutAll, Layout.wordsAll_append] at hy
        obtain ⟨z, w, rfl, hz, -⟩ := spells_append hy
        obtain ⟨t', rest', rfl, hb'⟩ :=
          hbegin a (List.mem_cons_of_mem s List.mem_cons_self) z hz
        rw [Done, hy'.next_eq]
        exact hb'.branch
    obtain ⟨s', hs', hys'⟩ := hread s List.mem_cons_self _ c c₁ hx hx' hdone
    refine ⟨s' :: ss', by rw [Node.bareList, Node.bareList, hs', hss], ?_⟩
    exact statements_cons (by rw [hx'.next_eq]; exact hb) hys' hys

/-- Statements that are read wherever they are printed. -/
structure ReadableBlock (context : Context) (ss : List Node) : Prop where
  read : ∀ s ∈ ss, ReadsAs context s
  begins : ∀ s ∈ ss, ∀ u, Spells u (Layout.wordsAll (layout s)) →
    ∃ t rest, u = t :: rest ∧ Begins t

/-- A block whose body is read up to its DEDENT. -/
theorem block_yields (title : String) {ss : List Node} (hcolon : c.next.is .delimiter ":" = true)
    (hn : (c.skip 1).next.kind = .newline) (hi : ((c.skip 1).skip 1).next.kind = .indent)
    (hbody : Yields (fun fuel => statements fuel context false) (((c.skip 1).skip 1).skip 1) ss c₁)
    (hd : c₁.next.kind = .dedent) :
    Yields (fun fuel => block fuel context title) c ss (c₁.skip 1) := by
  refine yields_step (fun fuel => statements fuel context false >>= fun body =>
    discard (expectKind .dedent "end of block") >>= fun _ => pure body) ?_
    (yields_bind hbody (yields_congr (fun _ => pure ss) ?_ (yields_pure ss (c₁.skip 1))))
  · intro fuel
    rw [block_succ, expect_bind, if_pos hcolon, expectKind_discard_bind, if_pos hn,
      expectKind_discard_bind, if_pos hi]
  · intro fuel
    rw [expectKind_discard_bind, if_pos hd]

theorem block_read (title : String) {ss : List Node} {colon : Token} {w : List Token}
    (hss : ReadableBlock context ss) (hcolon : colon.is .delimiter ":" = true)
    (hw : Blocked w (layoutAll ss)) (ht : Takes c (colon :: w) c') :
    ∃ ss', Node.bareList ss' = Node.bareList ss ∧
      Yields (fun fuel => block fuel context title) c ss' c' := by
  obtain ⟨newline, indent, v, dedent, rfl, hn, hi, hd, hv⟩ := hw.parts
  obtain ⟨c₂, hbody, hend⟩ := ht.skip_one.skip_one.skip_one.split
  have hdedent : c₂.next.kind = .dedent := by rw [hend.next_eq, hd]
  obtain ⟨ss', hbare, hy⟩ := statements_read hss.read hss.begins hv hbody
    (show Closes false c₂ from .inr ⟨hdedent, rfl⟩)
  have hskip : c₂.skip 1 = c' := hend.skip_length
  refine ⟨ss', hbare, hskip ▸ block_yields title ?_ ?_ ?_ hy hdedent⟩
  · rw [ht.next_eq, hcolon]
  · rw [ht.skip_one.next_eq, hn]
  · rw [ht.skip_one.skip_one.next_eq, hi]

theorem guarded_read (title : String) {ss : List Node} {colon : Token} {w : List Token}
    (he : e.Expression) (hss : ReadableBlock context ss) (hv : Spells v (wordsOf (pieces e)))
    (hcolon : colon.is .delimiter ":" = true) (hw : Blocked w (layoutAll ss))
    (ht : Takes c (v ++ colon :: w) c') :
    ∃ e' ss' c₁, e'.bare = e.bare ∧ Node.bareList ss' = Node.bareList ss ∧
      Yields (fun fuel => expression fuel loosest) c e' c₁ ∧
      Yields (fun fuel => block fuel context title) c₁ ss' c' := by
  obtain ⟨c₁, hv', hb⟩ := ht.split
  obtain ⟨e', he', hy⟩ := expression_read he hv hv'
    (follow_delimiter (by rw [hb.next_eq, hcolon]) (by decide))
  obtain ⟨ss', hss', hyb⟩ := block_read title hss hcolon hw hb
  exact ⟨e', ss', c₁, he', hss', hy, hyb⟩

theorem spells_header {lexeme : String} (h : Spells u (wordsOf (header lexeme e))) :
    ∃ t v colon, u = t :: (v ++ [colon]) ∧ t.is .keyword lexeme = true ∧
      Spells v (wordsOf (pieces e)) ∧ colon.is .delimiter ":" = true := by
  obtain ⟨t, w, rfl, ht, hw⟩ := spells_cons h
  rw [wordsOf, wordsOf_append] at hw
  obtain ⟨v, x, rfl, hv, hx⟩ := spells_append hw
  obtain ⟨colon, x, rfl, hc, hx⟩ := spells_cons hx
  obtain rfl := spells_nil hx
  exact ⟨t, v, colon, rfl, word_is ht, hv, word_is hc⟩

theorem spells_guarded {lexeme : String} {body ls : List Layout}
    (h : Spells u (Layout.wordsAll (.block (header lexeme e) body :: ls))) :
    ∃ t v colon w x, u = t :: (v ++ colon :: w ++ x) ∧ t.is .keyword lexeme = true ∧
      Spells v (wordsOf (pieces e)) ∧ colon.is .delimiter ":" = true ∧ Blocked w body ∧
      Spells x (Layout.wordsAll ls) := by
  obtain ⟨y, w, x, rfl, hy, hw, hx⟩ := spells_block h
  obtain ⟨t, v, colon, rfl, ht, hv, hc⟩ := spells_header hy
  exact ⟨t, v, colon, w, x, by simp, ht, hv, hc, hw, hx⟩

/-! ### Statements of one line -/

theorem statement_simple (ho : Opens .test c.next) (fuel : Nat) :
    statement (fuel + 1) context c =
      (expression fuel loosest >>= simpleTail fuel c.next.pos) c := by
  have hk := ho.kind
  simp only [List.mem_cons, List.not_mem_nil, or_false, not_or] at hk
  rw [statement_succ, ← simpleStatement_apply]
  split
  · next hw =>
    have hl := ho.keyword hw
    simp only [List.mem_cons, List.not_mem_nil, or_false] at hl
    rcases hl with hl | hl | hl | hl | hl <;> simp [wordRule, hl]
  · rw [if_neg hk.2.1]

theorem statement_word {lexeme : String} (h : c.next.is .keyword lexeme = true) (fuel : Nat) :
    statement (fuel + 1) context c =
      wordRule fuel context ⟨.keyword, lexeme, c.next.pos⟩ c := by
  obtain ⟨hk, rfl⟩ := is_iff.mp h
  rw [statement_succ, if_pos hk, ← hk]

theorem yields_word {lexeme : String} {s : Node} (tail : Nat → Rule Node)
    (h : c.next.is .keyword lexeme = true)
    (hrule : ∀ fuel, wordRule fuel context ⟨.keyword, lexeme, c.next.pos⟩ =
      discard advance >>= fun _ => tail fuel)
    (hy : Yields tail (c.skip 1) s c') : Yields (fun fuel => statement fuel context) c s c' := by
  refine yields_step tail ?_ hy
  intro fuel
  rw [statement_word h, hrule, discard_advance_bind]

theorem exprStmt_read {p : Place} (he : e.Expression) : ReadsAs context (.exprStmt p e) := by
  intro u c c' hu ht _
  obtain ⟨v, t, rfl, hv, hk⟩ := spells_line hu
  obtain ⟨c₁, hv', hend⟩ := ht.split
  have hnext : c₁.next.kind = .newline := by rw [hend.next_eq, hk]
  obtain ⟨e', he', hy⟩ := expression_read he hv hv' (follow_newline hnext)
  obtain ⟨x, rest, rfl, ho⟩ := expression_opens he hv
  refine ⟨.exprStmt c.next.pos e', by rw [Node.bare, Node.bare, he'], ?_⟩
  refine yields_step (fun fuel => expression fuel loosest >>= simpleTail fuel c.next.pos)
    (fun fuel => statement_simple (by rw [ht.next_eq]; exact ho) fuel)
    (yields_bind hy (yields_congr (fun _ => endOfLine >>= fun _ => pure (.exprStmt c.next.pos e'))
      ?_ (yields_line hend hk)))
  intro fuel
  have hassigns : assigns c₁.next = false := by simp [assigns, hnext]
  rw [simpleTail_apply, hassigns, if_neg Bool.false_ne_true]

def assignments : List String := ["=", "+=", "-=", "*=", "/=", "%="]

theorem assignments_spec {op : String} (h : op ∈ assignments) :
    precedence? op = none ∧ (op = "=" ∨ (augmented? op).isSome = true) := by
  revert h op
  decide

theorem follow_assignment (hk : c.next.kind = .operator) (h : c.next.lexeme ∈ assignments) :
    Follow 0 c := by
  refine ⟨fun lexeme _ => by simp [Token.is, hk], ?_⟩
  intro l hl
  simp [nextLevel?, binaryOperator?, hk, (assignments_spec h).1] at hl

theorem assigned_read {ps qs : List Piece} {t v : Node} {op : String} (hop : op ∈ assignments)
    (ht : Renders .test ps t) (ha : isAssignable t = true) (hv : Renders .test qs v)
    (hu : Spells u (Layout.wordsAll [.line (assigned op ps qs)])) (hc : Takes c u c') :
    ∃ t' v' x, t'.bare = t ∧ v'.bare = v ∧ x.lexeme = op ∧
      Yields (fun fuel => statement fuel context) c (assignment c.next.pos t' x v') c' := by
  obtain ⟨w, newline, rfl, hw, hk⟩ := spells_line hu
  rw [assigned, wordsOf_append] at hw
  obtain ⟨y, z, rfl, hy, hz⟩ := spells_append hw
  obtain ⟨x, z, rfl, hx, hz⟩ := spells_cons hz
  rw [List.append_assoc] at hc
  obtain ⟨c₁, hy', hrest⟩ := hc.split
  obtain ⟨c₂, hz', hend⟩ := hrest.skip_one.split
  have hkind : c₁.next.kind = .operator := by rw [hrest.next_eq, word_kind hx]
  have hlexeme : c₁.next.lexeme = op := by rw [hrest.next_eq, word_lexeme hx]
  obtain ⟨t', ht', hyt⟩ := rendered_read ht hy hy' (follow_assignment hkind (hlexeme ▸ hop))
  obtain ⟨v', hv', hyv⟩ := rendered_read hv hz hz' (follow_newline (by rw [hend.next_eq, hk]))
  obtain ⟨o, rest, rfl, ho⟩ := rendered_opens ht hy
  refine ⟨t', v', c₁.next, ht', hv', hlexeme, ?_⟩
  refine yields_step (fun fuel => expression fuel loosest >>= simpleTail fuel c.next.pos)
    (fun fuel => statement_simple (by rw [hc.next_eq]; exact ho) fuel)
    (yields_bind hyt (yields_congr (fun fuel => expression fuel loosest >>= fun value =>
      endOfLine >>= fun _ => pure (assignment c.next.pos t' c₁.next value)) ?_
      (yields_bind hyv (yields_line hend hk))))
  intro fuel
  have hassigns : assigns c₁.next = true := by
    simpa [assigns, hkind, hlexeme] using (assignments_spec hop).2
  have htarget : isAssignable t' = true := by
    rw [← isAssignable_bare, ht', ha]
  rw [simpleTail_apply, if_pos hassigns, if_pos htarget]

theorem assign_read {p : Place} {t v : Node} (ht : t.Expression) (ha : isAssignable t = true)
    (hv : v.Expression) : ReadsAs context (.assign p t v) := by
  intro u c c' hu hc _
  obtain ⟨t', v', x, ht', hv', hx, hy⟩ := assigned_read (by decide) (expression_renders ht)
    (by rw [isAssignable_bare, ha]) (expression_renders hv) hu hc
  refine ⟨_, ?_, hy⟩
  rw [assignment, hx]
  change Node.assign .unknown t'.bare v'.bare = Node.assign .unknown t.bare v.bare
  rw [ht', hv']

theorem augAssign_read {p : Place} {t v : Node} {op : String} (ht : t.Expression)
    (ha : isAssignable t = true) (hop : op ∈ ["+", "-", "*", "/", "%"]) (hv : v.Expression) :
    ReadsAs context (.augAssign p t op v) := by
  intro u c c' hu hc _
  have hall : ∀ op ∈ ["+", "-", "*", "/", "%"], op ++ "=" ∈ assignments ∧
      augmented? (op ++ "=") = some op := by decide
  obtain ⟨hm, haug⟩ := hall op hop
  obtain ⟨t', v', x, ht', hv', hx, hy⟩ := assigned_read hm (expression_renders ht)
    (by rw [isAssignable_bare, ha]) (expression_renders hv) hu hc
  refine ⟨_, ?_, hy⟩
  rw [assignment, hx, haug]
  change Node.augAssign .unknown t'.bare op v'.bare = Node.augAssign .unknown t.bare op v.bare
  rw [ht', hv']

theorem spells_word {lexeme : String} (h : Spells u (Layout.wordsAll [.line [keyword lexeme]])) :
    ∃ t newline, u = [t, newline] ∧ t.is .keyword lexeme = true ∧ newline.kind = .newline := by
  obtain ⟨v, newline, rfl, hv, hk⟩ := spells_line h
  obtain ⟨t, w, rfl, ht, hw⟩ := spells_cons hv
  obtain rfl := spells_nil hw
  exact ⟨t, newline, rfl, word_is ht, hk⟩

theorem spells_phrase {lexeme : String}
    (h : Spells u (Layout.wordsAll [.line (keyword lexeme :: .blank :: pieces e)])) :
    ∃ t v newline, u = t :: (v ++ [newline]) ∧ t.is .keyword lexeme = true ∧
      Spells v (wordsOf (pieces e)) ∧ newline.kind = .newline := by
  obtain ⟨w, newline, rfl, hw, hk⟩ := spells_line h
  obtain ⟨t, v, rfl, ht, hv⟩ := spells_cons hw
  exact ⟨t, v, newline, rfl, word_is ht, hv, hk⟩

/-- A word that is a statement by itself. -/
theorem word_read (lexeme : String) (build : Place → Node) {s : Node}
    (hlayout : layout s = [.line [keyword lexeme]]) (hbare : ∀ p, (build p).bare = s.bare)
    (hrule : ∀ fuel (c : Cursor), (c.skip 1).next.kind = .newline →
      wordRule fuel context ⟨.keyword, lexeme, c.next.pos⟩ c =
        (endOfLine >>= fun _ => pure (build c.next.pos)) (c.skip 1)) :
    ReadsAs context s := by
  intro u c c' hu ht _
  rw [hlayout] at hu
  obtain ⟨t, newline, rfl, hk, hn⟩ := spells_word hu
  refine ⟨build c.next.pos, hbare _, ?_⟩
  refine yields_step (fun _ => endOfLine >>= fun _ => pure (build c.next.pos)) ?_
    (yields_line ht.skip_one hn)
  intro fuel
  rw [statement_word (by rw [ht.next_eq, hk])]
  exact hrule fuel c (by rw [ht.skip_one.next_eq, hn])

theorem returnNone_read {p : Place} (hin : context.inFunction = true) :
    ReadsAs context (.returnStmt p .hole) := by
  apply word_read "return" (fun p => .returnStmt p .hole) rfl (fun _ => rfl)
  intro fuel c hn
  simp only [wordRule, String.reduceEq, if_false, if_true]
  rw [returnStatement_apply, if_pos hin, if_pos hn]

theorem returnStmt_read {p : Place} (hin : context.inFunction = true) (he : e.Expression) :
    ReadsAs context (.returnStmt p e) := by
  intro u c c' hu ht _
  have hlayout : layout (.returnStmt p e) = [.line (keyword "return" :: .blank :: pieces e)] := by
    cases he <;> rfl
  rw [hlayout] at hu
  obtain ⟨t, v, newline, rfl, hk, hv, hn⟩ := spells_phrase hu
  obtain ⟨c₁, hv', hend⟩ := ht.skip_one.split
  obtain ⟨e', he', hy⟩ := expression_read he hv hv'
    (follow_newline (by rw [hend.next_eq, hn]))
  refine ⟨.returnStmt c.next.pos e', by rw [Node.bare, Node.bare, he'], ?_⟩
  refine yields_step (fun fuel => expression fuel loosest >>= fun value =>
    endOfLine >>= fun _ => pure (.returnStmt c.next.pos value)) ?_
    (yields_bind hy (yields_line hend hn))
  intro fuel
  obtain ⟨x, rest, rfl, ho⟩ := expression_opens he hv
  have hopen : (c.skip 1).next.kind ≠ .newline := by
    rw [hv'.next_eq]
    intro hx
    exact ho.kind (by simp [hx])
  rw [statement_word (by rw [ht.next_eq, hk])]
  simp only [wordRule, String.reduceEq, if_false, if_true]
  rw [returnStatement_apply, if_pos hin, if_neg hopen]

theorem breakStmt_read {p : Place} (hin : context.inLoop = true) :
    ReadsAs context (.breakStmt p) := by
  apply word_read "break" .breakStmt rfl (fun _ => rfl)
  intro fuel c _
  simp only [wordRule, String.reduceEq, if_false, if_true]
  rw [loopStatement_apply, if_pos hin]

theorem continueStmt_read {p : Place} (hin : context.inLoop = true) :
    ReadsAs context (.continueStmt p) := by
  apply word_read "continue" .continueStmt rfl (fun _ => rfl)
  intro fuel c _
  simp only [wordRule, String.reduceEq, if_false, if_true]
  rw [loopStatement_apply, if_pos hin]

theorem passStmt_read {p : Place} : ReadsAs context (.passStmt p) := by
  apply word_read "pass" .passStmt rfl (fun _ => rfl)
  intro fuel c _
  simp only [wordRule, String.reduceEq, if_false, if_true]
  rw [passStatement_apply]

theorem delete_read {p q : Place} {t i : Node} (he : (Node.index q t i).Expression) :
    ReadsAs context (.delete p (.index q t i)) := by
  intro u c c' hu ht _
  obtain ⟨x, v, newline, rfl, hk, hv, hn⟩ := spells_phrase hu
  obtain ⟨c₁, hv', hend⟩ := ht.skip_one.split
  obtain ⟨e', he', hy⟩ := expression_read he hv hv'
    (follow_newline (by rw [hend.next_eq, hn]))
  refine ⟨.delete c.next.pos e', by rw [Node.bare, Node.bare, he'], ?_⟩
  have htail : deleteTail c.next.pos e' = endOfLine >>= fun _ => pure (.delete c.next.pos e') := by
    cases e' <;> simp only [Node.bare, reduceCtorEq] at he'
    rfl
  refine yields_step (fun fuel => expression fuel loosest >>= deleteTail c.next.pos)
    ?_ (yields_bind hy (yields_congr _ (fun fuel => by rw [htail])
      (yields_line hend hn)))
  intro fuel
  rw [statement_word (by rw [ht.next_eq, hk])]
  simp only [wordRule, String.reduceEq, if_false, if_true]
  rw [deleteStatement_apply]

/-! ### Statements with blocks -/

theorem whileStmt_read {p : Place} {ss : List Node} (he : e.Expression)
    (hss : ReadableBlock { context with inLoop := true } ss) :
    ReadsAs context (.whileStmt p e ss) := by
  intro u c c' hu ht _
  obtain ⟨t, v, colon, w, x, rfl, hk, hv, hc, hw, hx⟩ := spells_guarded hu
  obtain rfl := spells_nil hx
  rw [List.append_nil] at ht
  obtain ⟨e', ss', c₁, he', hss', hye, hyb⟩ := guarded_read "'while' condition" he hss hv hc hw
    ht.skip_one
  refine ⟨.whileStmt c.next.pos e' ss', by rw [Node.bare, Node.bare, he', hss'], ?_⟩
  have hnext : c.next.is .keyword "while" = true := by rw [ht.next_eq, hk]
  exact yields_word (fun fuel => whileTail fuel context c.next.pos) hnext (fun _ => rfl)
    (yields_bind hye (yields_bind hyb (yields_pure _ _)))

theorem forStmt_read {p : Place} {x : String} {ss : List Node} (he : e.Expression)
    (hss : ReadableBlock { context with inLoop := true } ss) :
    ReadsAs context (.forStmt p x e ss) := by
  intro u c c' hu ht _
  obtain ⟨y, w, z, rfl, hy, hw, hz⟩ := spells_block hu
  obtain rfl := spells_nil hz
  obtain ⟨t, y, rfl, hk, hy⟩ := spells_cons hy
  obtain ⟨n, y, rfl, hn, hy⟩ := spells_cons hy
  obtain ⟨i, v, colon, rfl, hi, hv, hc⟩ := spells_header hy
  have hrest := ht.skip_one.skip_one.skip_one
  obtain ⟨e', ss', c₁, he', hss', hye, hyb⟩ := guarded_read "'for' clause" he hss hv hc hw
    (by simpa using hrest)
  refine ⟨.forStmt c.next.pos x e' ss', by rw [Node.bare, Node.bare, he', hss'], ?_⟩
  have htail : Yields (fun fuel => forTail fuel context c.next.pos) (c.skip 1)
      (.forStmt c.next.pos x e' ss') c' := by
    refine yields_congr (fun fuel => expression fuel loosest >>= fun iterable =>
      block fuel { context with inLoop := true } "'for' clause" >>= fun body =>
      pure (.forStmt c.next.pos x iterable body)) ?_
      (yields_bind hye (yields_bind hyb (yields_pure _ _)))
    intro fuel
    rw [forTail, expectKind_bind, if_pos (by rw [ht.skip_one.next_eq, word_kind hn]), expect_bind,
      if_pos (by rw [ht.skip_one.skip_one.next_eq, hi]), ht.skip_one.next_eq, word_lexeme hn]
    rfl
  have hnext : c.next.is .keyword "for" = true := by rw [ht.next_eq, word_is hk]
  exact yields_word (fun fuel => forTail fuel context c.next.pos) hnext (fun _ => rfl) htail

theorem signature_yields {x : String} {xs : List String} {ss : List Node} {pos : Position}
    (hn : c.next.kind = .identifier) (hx : c.next.lexeme = x)
    (ho : (c.skip 1).next.is .delimiter "(" = true)
    (hparams : Yields (fun fuel => parameters ")" "a parameter name" fuel [])
      ((c.skip 1).skip 1) xs c₁)
    (hclose : c₁.next.is .delimiter ")" = true)
    (hblock : Yields (fun fuel => block fuel ⟨false, true⟩ "function signature")
      (c₁.skip 1) ss c') :
    Yields (fun fuel => defTail fuel pos) c (.functionDef pos x (xs.map Json.string) ss) c' := by
  have hclosed : Yields (fun fuel => discard (expect .delimiter ")" "')' after parameters") >>=
      fun _ => block fuel ⟨false, true⟩ "function signature" >>= fun body =>
        pure (Node.functionDef pos x (xs.map Json.string) body)) c₁
      (.functionDef pos x (xs.map Json.string) ss) c' := by
    refine yields_congr (fun fuel => block fuel ⟨false, true⟩ "function signature" >>=
      fun body => pure (.functionDef pos x (xs.map Json.string) body)) ?_
      (yields_bind hblock (yields_pure _ _))
    intro fuel
    rw [expect_bind, if_pos hclose]
  refine yields_congr (fun fuel => parameters ")" "a parameter name" fuel [] >>= fun params =>
    discard (expect .delimiter ")" "')' after parameters") >>= fun _ =>
    block fuel ⟨false, true⟩ "function signature" >>= fun body =>
      pure (.functionDef pos x (params.map Json.string) body)) ?_ (yields_bind hparams hclosed)
  intro fuel
  rw [defTail, expectKind_bind, if_pos hn, expect_bind, if_pos ho, hx]

theorem functionDef_read {p : Place} {x : String} {xs : List String} {ss : List Node}
    (hxs : ∀ x ∈ xs, IsName x) (hd : xs.Nodup) (hss : ReadableBlock ⟨false, true⟩ ss) :
    ReadsAs context (.functionDef p x (xs.map Json.string) ss) := by
  intro u c c' hu ht _
  simp only [layout, List.map_map] at hu
  obtain ⟨y, w, z, rfl, hy, hw, hz⟩ := spells_block hu
  obtain rfl := spells_nil hz
  obtain ⟨t, y, rfl, hk, hy⟩ := spells_cons hy
  obtain ⟨n, y, rfl, hn, hy⟩ := spells_cons hy
  rw [wordsOf_append] at hy
  obtain ⟨b, r, rfl, hb, hr⟩ := spells_append hy
  obtain ⟨opening, v, closing, rfl, ho, hv, hcl⟩ := spells_bracketed hb
  obtain ⟨colon, r, rfl, hc, hr⟩ := spells_cons hr
  obtain rfl := spells_nil hr
  have hrest := ht.skip_one.skip_one.skip_one
  have hparts : Takes (((c.skip 1).skip 1).skip 1) (v ++ closing :: colon :: w) c' := by
    simpa using hrest
  obtain ⟨c₁, hv', hcl'⟩ := hparts.split
  have hclose : c₁.next.is .delimiter ")" = true := by rw [hcl'.next_eq, hcl]
  have hparams : Yields (fun fuel => parameters ")" "a parameter name" fuel [])
      (((c.skip 1).skip 1).skip 1) xs c₁ :=
    names_complete (names_derive hxs hv) (by decide) hv' hclose hd
  obtain ⟨ss', hss', hyb⟩ := block_read "function signature" hss (word_is hc) hw
    hcl'.skip_one
  refine ⟨.functionDef c.next.pos x (xs.map Json.string) ss', by rw [Node.bare, Node.bare, hss'],
    ?_⟩
  have htail : Yields (fun fuel => defTail fuel c.next.pos) (c.skip 1)
      (.functionDef c.next.pos x (xs.map Json.string) ss') c' := by
    refine signature_yields ?_ ?_ ?_ hparams hclose hyb
    · rw [ht.skip_one.next_eq, word_kind hn]
    · rw [ht.skip_one.next_eq, word_lexeme hn]
      rfl
    · rw [ht.skip_one.skip_one.next_eq, ho]
  have hnext : c.next.is .keyword "def" = true := by rw [ht.next_eq, word_is hk]
  exact yields_word (fun fuel => defTail fuel c.next.pos) hnext (fun _ => rfl) htail

theorem elifs_read {bs : List (Node × List Node)} (he : ∀ b ∈ bs, b.1.Expression)
    (hss : ∀ b ∈ bs, ReadableBlock context b.2)
    (hu : Spells u (Layout.wordsAll (branches "elif" bs))) (ht : Takes c u c')
    (hn : c'.next.is .keyword "elif" = false) :
    ∃ bs', Node.bareBranches bs' = Node.bareBranches bs ∧
      ∀ read, Yields (fun fuel => elifs fuel context read) c (read ++ bs') c' := by
  induction bs generalizing u c with
  | nil =>
    obtain rfl := spells_nil hu
    obtain rfl : c = c' := ht.skip_length
    refine ⟨[], rfl, ?_⟩
    intro read
    rw [List.append_nil]
    refine yields_step (fun _ => pure read) ?_ (yields_pure read c)
    intro fuel
    rw [elifs_succ, hn, if_neg Bool.false_ne_true]
    rfl
  | cons b bs ih =>
    obtain ⟨t, v, colon, w, x, rfl, hk, hv, hc, hw, hx⟩ := spells_guarded hu
    obtain ⟨c₁, hfirst, hothers⟩ := ht.skip_one.split
    obtain ⟨e', ss', c₂, he', hss', hye, hyb⟩ := guarded_read "'elif' condition"
      (he b List.mem_cons_self) (hss b List.mem_cons_self) hv hc hw hfirst
    obtain ⟨bs', hbs', hys⟩ := ih (fun a ha => he a (List.mem_cons_of_mem b ha))
      (fun a ha => hss a (List.mem_cons_of_mem b ha)) hx hothers
    refine ⟨(e', ss') :: bs', by rw [Node.bareBranches, Node.bareBranches, he', hss', hbs'],
      ?_⟩
    intro read
    have hmore := hys (read ++ [(e', ss')])
    rw [List.append_assoc] at hmore
    refine yields_step (fun fuel => expression fuel loosest >>= fun condition =>
      block fuel context "'elif' condition" >>= fun body =>
      elifs fuel context (read ++ [(condition, body)])) ?_
      (yields_bind hye (yields_bind hyb hmore))
    intro fuel
    rw [elifs_succ, if_pos (by rw [ht.next_eq, hk])]

/-- What an `if` statement has after its branches. -/
def elseTail (context : Context) (pos : Position) (bs : List (Node × List Node)) (fuel : Nat) :
    Rule Node := do
  if ← accept .keyword "else" then
    let elseBody ← block fuel context "'else'"
    pure (.ifStmt pos bs (some elseBody))
  else pure (.ifStmt pos bs none)

theorem else_read (pos : Position) {e : Option (List Node)}
    (hss : ∀ b ∈ e, ReadableBlock context b) (hu : Spells u (Layout.wordsAll (elseBranch e)))
    (ht : Takes c u c') (hd : Done c') :
    c.next.is .keyword "elif" = false ∧ ∃ e', Node.bareBody e' = Node.bareBody e ∧
      ∀ bs, Yields (elseTail context pos bs) c (.ifStmt pos bs e') c' := by
  cases e with
  | none =>
    obtain rfl := spells_nil hu
    obtain rfl : c = c' := ht.skip_length
    refine ⟨hd.1, none, rfl, ?_⟩
    intro bs
    refine yields_congr (fun _ => pure (.ifStmt pos bs none)) ?_ (yields_pure _ c)
    intro fuel
    rw [elseTail, accept_bind, hd.2, if_neg Bool.false_ne_true]
    rfl
  | some b =>
    obtain ⟨y, w, z, rfl, hy, hw, hz⟩ := spells_block hu
    obtain rfl := spells_nil hz
    obtain ⟨t, y, rfl, hk, hy⟩ := spells_cons hy
    obtain ⟨colon, y, rfl, hc, hy⟩ := spells_cons hy
    obtain rfl := spells_nil hy
    rw [List.append_nil] at ht
    obtain ⟨b', hb', hyb⟩ := block_read "'else'" (hss b rfl) (word_is hc) hw ht.skip_one
    have hnext : c.next.is .keyword "else" = true := by rw [ht.next_eq, word_is hk]
    refine ⟨is_false hnext (.inr (by decide)), some b', by rw [Node.bareBody, Node.bareBody, hb'],
      ?_⟩
    intro bs
    refine yields_congr (fun fuel => block fuel context "'else'" >>= fun elseBody =>
      pure (.ifStmt pos bs (some elseBody))) ?_ (yields_bind hyb (yields_pure _ _))
    intro fuel
    rw [elseTail, accept_bind, if_pos hnext]
    rfl

theorem ifStmt_read {p : Place} {bs : List (Node × List Node)} {e : Option (List Node)}
    (hne : bs ≠ []) (he : ∀ b ∈ bs, b.1.Expression) (hss : ∀ b ∈ bs, ReadableBlock context b.2)
    (helse : ∀ b ∈ e, ReadableBlock context b) : ReadsAs context (.ifStmt p bs e) := by
  intro u c c' hu ht hd
  obtain ⟨b, bs, rfl⟩ := List.exists_cons_of_ne_nil hne
  rw [layout, branches, List.cons_append] at hu
  obtain ⟨t, v, colon, w, x, rfl, hk, hv, hc, hw, hx⟩ := spells_guarded hu
  rw [Layout.wordsAll_append] at hx
  obtain ⟨y, z, rfl, hy, hz⟩ := spells_append hx
  obtain ⟨c₁, hfirst, hothers⟩ := ht.skip_one.split
  obtain ⟨c₂, helifs, hrest⟩ := hothers.split
  obtain ⟨e', ss', c₃, he', hss', hye, hyb⟩ := guarded_read "'if' condition"
    (he b List.mem_cons_self) (hss b List.mem_cons_self) hv hc hw hfirst
  obtain ⟨hn, el, hel, hyelse⟩ := else_read c.next.pos helse hz hrest hd
  obtain ⟨bs', hbs', hyelifs⟩ := elifs_read (fun a ha => he a (List.mem_cons_of_mem b ha))
    (fun a ha => hss a (List.mem_cons_of_mem b ha)) hy helifs hn
  refine ⟨.ifStmt c.next.pos ((e', ss') :: bs') el, ?_, ?_⟩
  · rw [Node.bare, Node.bare, Node.bareBranches, Node.bareBranches, he', hss', hbs', hel]
  · have hnext : c.next.is .keyword "if" = true := by rw [ht.next_eq, hk]
    exact yields_word (fun fuel => ifTail fuel context c.next.pos) hnext (fun _ => rfl)
      (yields_bind hye (yields_bind hyb (yields_bind (hyelifs [(e', ss')]) (hyelse _))))

end Offside.Printer
