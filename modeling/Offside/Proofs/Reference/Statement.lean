import Offside.Proofs.Reference.Expression

/-!
What trees of statements mean. The tokens of an expression are determined by what may stand behind
it, and those of a statement by its first token: where a tree of the grammar and a derivation begin
with the same tokens they take as many, and give the same.
-/

namespace Offside.Reference

open Grammar
open Offside.Parser (Cursor Takes Follow Readable Opens Begins is_iff is_false)

variable {us vs r r' ts whole : List Token} {xs : List Tree} {e e' s : Node} {t u : Token}
  {a : Alternative}

/-! ### Where an expression ends -/

/-- The end of a line, a colon or the mark of an assignment. -/
inductive Halts : List Token → Prop where
  | newline {t : Token} {rest : List Token} : t.kind = .newline → Halts (t :: rest)
  | colon {t : Token} {rest : List Token} : t.is .delimiter ":" = true → Halts (t :: rest)
  | mark {t : Token} {rest : List Token} : t.kind = .operator →
      t.lexeme = "=" ∨ t.lexeme ∈ Terminal.augmentedTexts → Halts (t :: rest)

theorem halts_follow {stop : Token} {es : List ParseError} (h : Halts r) :
    Follow 0 ⟨r, stop, es⟩ := by
  cases h with
  | newline hk =>
    refine ⟨fun l _ => ?_, fun l hl => ?_⟩
    · simp [Cursor.next, Token.is, hk]
    · simp [Parser.nextLevel?, Parser.binaryOperator?, Cursor.next, hk] at hl
  | colon hcolon => exact Parser.follow_delimiter hcolon (by decide)
  | @mark t rest hk hl =>
    refine ⟨fun l _ => ?_, fun l hlevel => ?_⟩
    · simp [Cursor.next, Token.is, hk]
    · have hnone : Parser.precedence? t.lexeme = none := by
        rcases hl with hl | hl
        · rw [hl]
          rfl
        · revert hl
          generalize t.lexeme = text
          revert text
          decide
      simp [Parser.nextLevel?, Parser.binaryOperator?, Cursor.next, hk, hnone] at hlevel

theorem derives_unique (h : Derives Readable (.expr .test e) us)
    (h' : Derives Readable (.expr .test e') vs) (hr : Halts r) (hr' : Halts r')
    (heq : us ++ r = vs ++ r') : us = vs ∧ e = e' ∧ r = r' := by
  let stop : Token := ⟨.stop, "", .start⟩
  have hu : Takes ⟨us ++ r, stop, []⟩ us ⟨r, stop, []⟩ := ⟨rfl, rfl, rfl⟩
  have hv : Takes ⟨us ++ r, stop, []⟩ vs ⟨r', stop, []⟩ := ⟨heq, rfl, rfl⟩
  obtain ⟨m, rfl, n, hm⟩ := Parser.expression_complete h hu (halts_follow hr)
  obtain ⟨m', rfl, n', hm'⟩ := Parser.expression_complete h' hv (halts_follow hr')
  have hsame := (hm (max n n') (Nat.le_max_left n n')).symm.trans
    (hm' (max n n') (Nat.le_max_right n n'))
  cases hsame
  exact ⟨List.append_cancel_right heq, rfl, rfl⟩

/-! ### Where a statement begins -/

/-- The keyword that a statement begins with, if it begins with one of its own. -/
def leading : Node → Option String
  | .returnStmt .. => some "return"
  | .breakStmt .. => some "break"
  | .continueStmt .. => some "continue"
  | .passStmt .. => some "pass"
  | .delete .. => some "del"
  | .ifStmt .. => some "if"
  | .whileStmt .. => some "while"
  | .forStmt .. => some "for"
  | .functionDef .. => some "def"
  | _ => none

/-- A token that a statement can begin with: its keyword, or the first token of an expression. -/
def CanBegin (s : Node) (t : Token) : Prop :=
  match leading s with
  | some word => t.is .keyword word = true
  | none => Opens .test t

theorem derives_opens (h : Derives Readable (.expr .test e) us) :
    ∃ t rest, us = t :: rest ∧ Opens .test t := Parser.derives_headed h

theorem builds_canBegin (h : Builds (.statement s) us) :
    ∃ t rest, us = t :: rest ∧ CanBegin s t := by
  cases h with
  | exprStmt hd | assign hd | augAssign hd =>
    obtain ⟨t, rest, rfl, ht⟩ := derives_opens hd
    exact ⟨t, _, rfl, ht⟩
  | returns hn | returnsValue hn | breaks hn | continues hn | passes hn | delete hn
  | conditional hn | whileLoop hn | forLoop hn | function hn => exact ⟨_, _, rfl, hn⟩

theorem canBegin_begins (h : CanBegin s t) : Begins t := by
  have hword : ∀ word ∈ leading s, word ∉ ["elif", "else"] := by
    cases s <;> simp [leading]
  unfold CanBegin at h
  split at h
  · next word hs => exact Parser.keyword_begins h (hword word hs)
  · exact Parser.opens_begins h

theorem builds_heads (h : Builds (.statement s) us) : Heads us := by
  obtain ⟨t, rest, rfl, ht⟩ := builds_canBegin h
  exact ⟨t, rest, rfl, canBegin_begins ht⟩

/-- The first token tells the kind of a statement. -/
theorem leading_word {word : String} (h : Builds (.statement s) us) (heq : t :: r = us ++ r')
    (ht : t.is .keyword word = true)
    (hword : word ∉ ["not", "lambda", "true", "false", "none"]) : leading s = some word := by
  obtain ⟨u, rest, rfl, hu⟩ := builds_canBegin h
  obtain ⟨rfl, -⟩ := List.cons.inj heq
  unfold CanBegin at hu
  obtain ⟨hk, hl⟩ := is_iff.mp ht
  split at hu
  · next word' hs => rw [hs, ← hl, (is_iff.mp hu).2]
  · exact absurd (hl ▸ hu.keyword hk) hword

theorem leading_own {word : String} (h : leading s = some word) :
    word ∉ ["not", "lambda", "true", "false", "none"] := by
  revert h
  cases s <;> simp only [leading, reduceCtorEq, false_implies, Option.some.injEq] <;> rintro rfl <;>
    decide

theorem leading_expression (h : Builds (.statement s) us)
    (hd : Derives Readable (.expr .test e) ts) (heq : ts ++ r = us ++ r') : leading s = none := by
  obtain ⟨t, rest, rfl, ht⟩ := derives_opens hd
  obtain ⟨u, rest', rfl, hu⟩ := builds_canBegin h
  obtain ⟨rfl, -⟩ := List.cons.inj heq
  unfold CanBegin at hu
  split at hu
  · next word hs =>
    obtain ⟨hk, rfl⟩ := is_iff.mp hu
    exact absurd (ht.keyword hk) (leading_own hs)
  · assumption

theorem heads_noClause (h : Heads ts) : NoClause (ts ++ r) := by
  obtain ⟨t, rest, rfl, ht⟩ := h
  intro u hu
  obtain rfl : t = u := Option.some.inj hu
  exact ht.branch

theorem heads_kind (h : Heads (t :: r)) :
    t.kind ≠ .newline ∧ t.kind ≠ .indent ∧ t.kind ≠ .dedent := by
  obtain ⟨u, rest, heq, hu⟩ := h
  obtain ⟨rfl, -⟩ := List.cons.inj heq
  have := hu.kind
  simp_all

/-! ### Statements of one line -/

theorem word_heads {word : String} (h : t.is .keyword word = true)
    (hword : word ∉ ["elif", "else"]) :
    Heads (t :: r) := ⟨t, r, rfl, Parser.keyword_begins h hword⟩

theorem derives_heads (h : Derives Readable (.expr .test e) us) : Heads (us ++ r) := by
  obtain ⟨t, rest, rfl, ht⟩ := derives_opens h
  exact ⟨t, _, rfl, Parser.opens_begins ht⟩

/-- What a tree for a statement becomes, as long as it is a branch. -/
theorem states_branch {name : Label} {items : List Item} {back : List Token}
    (hbranch : (grammar name).inline = false) (hxs : transformAll xs = .ok items)
    (hheads : Heads ts)
    (hstates : ∀ {s us r r'}, Builds (.statement s) us → ts ++ back ++ r = us ++ r' → NoClause r →
      NoClause r' → us = ts ++ back ∧
        ∀ pos, ∃ n, build pos (a.label.getD name) items = .ok (.node n) ∧ n.bare = s) :
    States ts back (a.tree name ts xs) := by
  refine ⟨hheads, fun {s us r r'} hb heq hr hr' => ?_⟩
  obtain ⟨hus, hbuild⟩ := hstates hb heq hr hr'
  exact ⟨hus, transform_tree (fun made => ∃ n, made = .ok (.node n) ∧ n.bare = s) (.inr hbranch) hxs
    hbuild⟩

/-- A statement of one line that begins with an expression, by what stands behind that. -/
inductive Finishes (e : Node) : Node → List Token → Prop where
  | here {line : Token} : line.kind = .newline → Finishes e (.exprStmt .unknown e) [line]
  | assign {mark line : Token} {v : List Token} {e' : Node} : Parser.isAssignable e = true →
      mark.is .operator "=" = true → Derives Readable (.expr .test e') v → line.kind = .newline →
      Finishes e (.assign .unknown e e') (mark :: v ++ [line])
  | augAssign {mark line : Token} {v : List Token} {op : String} {e' : Node} :
      Parser.isAssignable e = true → mark.kind = .operator →
      Parser.augmented? mark.lexeme = some op → Derives Readable (.expr .test e') v →
      line.kind = .newline → Finishes e (.augAssign .unknown e op e') (mark :: v ++ [line])

theorem Finishes.halts (h : Finishes e s us) : Halts (us ++ r) := by
  cases h with
  | here hline => exact .newline hline
  | assign _ hmark =>
    obtain ⟨hk, hl⟩ := is_iff.mp hmark
    exact .mark hk (.inl hl)
  | augAssign _ hk haug => exact .mark hk (.inr (augmented_text haug).1)

theorem builds_finishes (h : Builds (.statement s) us) (hs : leading s = none) :
    ∃ e u rest, us = u ++ rest ∧ Derives Readable (.expr .test e) u ∧ Finishes e s rest := by
  cases h with
  | exprStmt hd hline => exact ⟨_, _, _, rfl, hd, .here hline⟩
  | assign hd ha hmark hv hline =>
    exact ⟨_, _, _, List.append_assoc .., hd, .assign ha hmark hv hline⟩
  | augAssign hd ha hk haug hv hline =>
    exact ⟨_, _, _, List.append_assoc .., hd, .augAssign ha hk haug hv hline⟩
  | _ => cases hs

theorem finishes (h : Builds (.statement s) us) (hd : Derives Readable (.expr .test e) ts)
    (hr : Halts r) (heq : ts ++ r = us ++ r') :
    ∃ rest, us = ts ++ rest ∧ r = rest ++ r' ∧ Finishes e s rest := by
  obtain ⟨e', u, rest, rfl, hd', hrest⟩ := builds_finishes h (leading_expression h hd heq)
  rw [List.append_assoc] at heq
  obtain ⟨rfl, rfl, rfl⟩ := derives_unique hd hd' hr hrest.halts heq
  exact ⟨rest, rfl, rfl, hrest⟩

theorem exprStmt_means (ha : a ∈ (grammar .exprStmt).alternatives) (h : Fits Means a.body ts xs) :
    Means .exprStmt ts (a.tree .exprStmt ts xs) := by
  intro line hline
  obtain rfl := List.mem_singleton.mp ha
  obtain ⟨x, ⟨n, hn, hd⟩, rfl⟩ := h
  refine states_branch rfl (transformAll_cons hn rfl) (by simpa using derives_heads (r := []) hd) ?_
  intro s us r r' hb heq _ _
  rw [List.append_assoc] at heq
  obtain ⟨rest, rfl, hrest, hfinishes⟩ := finishes hb hd (.newline hline) heq
  cases hfinishes with
  | here =>
    obtain ⟨rfl, -⟩ := List.cons.inj hrest
    exact ⟨rfl, fun pos => ⟨_, rfl, rfl⟩⟩
  | assign _ hmark =>
    obtain ⟨rfl, -⟩ := List.cons.inj hrest
    exact nomatch (is_iff.mp hmark).1.symm.trans hline
  | augAssign _ hk =>
    obtain ⟨rfl, -⟩ := List.cons.inj hrest
    exact nomatch hk.symm.trans hline

theorem assignable_of_bare {n : Node} (h : Parser.isAssignable n.bare = true) :
    isAssignable n = true := by
  cases n <;> first | rfl | cases h

/-- The sides of an assignment. -/
theorem fits_sides {c : Terminal}
    (h : Fits Means (.all [.rule .test, .token c, .rule .test]) ts xs) :
    ∃ m n mark u v, ts = u ++ mark :: v ∧ mark.terminal = c ∧
      transformAll xs =
        .ok (if c.isKept then [.node m, .token mark, .node n] else [.node m, .node n]) ∧
      Derives Readable (.expr .test m.bare) u ∧ Derives Readable (.expr .test n.bare) v := by
  obtain ⟨u, _, _, _, ⟨x, ⟨m, hm, hdm⟩, rfl⟩, ⟨_, v, _, _, ⟨mark, hmark, rfl, rfl⟩,
    ⟨y, ⟨n, hn, hdn⟩, rfl⟩, rfl, rfl⟩, rfl, rfl⟩ := h
  refine ⟨m, n, mark, u, v, rfl, hmark, ?_, hdm, hdn⟩
  split_ifs
  · exact transformAll_cons hm (transformAll_cons rfl (transformAll_cons hn rfl))
  · exact transformAll_cons hm (transformAll_cons hn rfl)

theorem assignStmt_means (ha : a ∈ (grammar .assignStmt).alternatives)
    (h : Fits Means a.body ts xs) : Means .assignStmt ts (a.tree .assignStmt ts xs) := by
  intro line hline
  obtain rfl := List.mem_singleton.mp ha
  obtain ⟨m, n, mark, u, v, rfl, hmark, hxs, hdm, hdn⟩ := fits_sides h
  obtain ⟨hk, hl⟩ := mark_spelled "=" (by simp) hmark
  refine states_branch rfl hxs (derives_heads hdm) ?_
  intro s us r r' hb heq _ _
  rw [List.append_assoc, List.append_assoc] at heq
  obtain ⟨rest, rfl, hrest, hfinishes⟩ := finishes hb hdm (.mark hk (.inl hl)) heq
  cases hfinishes with
  | here hline' =>
    obtain ⟨rfl, -⟩ := List.cons.inj hrest
    exact nomatch hk.symm.trans hline'
  | assign hassignable _ hv hline' =>
    obtain ⟨rfl, hsides⟩ := List.cons.inj hrest
    simp only [List.append_eq, List.append_assoc] at hsides
    obtain ⟨rfl, rfl, hends⟩ := derives_unique hdn hv (.newline hline) (.newline hline') hsides
    obtain ⟨rfl, -⟩ := List.cons.inj hends
    refine ⟨by simp, fun pos => ⟨.assign pos m n, ?_, rfl⟩⟩
    change Item.node <$> assignment pos m n none = _
    rw [assignment, if_pos (assignable_of_bare hassignable)]
    rfl
  | augAssign _ _ haug =>
    obtain ⟨rfl, -⟩ := List.cons.inj hrest
    rw [hl] at haug
    cases haug

theorem augAssignStmt_means (ha : a ∈ (grammar .augAssignStmt).alternatives)
    (h : Fits Means a.body ts xs) : Means .augAssignStmt ts (a.tree .augAssignStmt ts xs) := by
  intro line hline
  obtain rfl := List.mem_singleton.mp ha
  obtain ⟨m, n, mark, u, v, rfl, hmark, hxs, hdm, hdn⟩ := fits_sides h
  obtain ⟨hk, hl⟩ := terminal_augmented.mp hmark
  refine states_branch rfl hxs (derives_heads hdm) ?_
  intro s us r r' hb heq _ _
  rw [List.append_assoc, List.append_assoc] at heq
  obtain ⟨rest, rfl, hrest, hfinishes⟩ := finishes hb hdm (.mark hk (.inr hl)) heq
  cases hfinishes with
  | here hline' =>
    obtain ⟨rfl, -⟩ := List.cons.inj hrest
    exact nomatch hk.symm.trans hline'
  | assign _ hmark' =>
    obtain ⟨rfl, -⟩ := List.cons.inj hrest
    rw [(is_iff.mp hmark').2] at hl
    exact absurd hl (by decide)
  | augAssign hassignable _ haug hv hline' =>
    obtain ⟨rfl, hsides⟩ := List.cons.inj hrest
    simp only [List.append_eq, List.append_assoc] at hsides
    obtain ⟨rfl, rfl, hends⟩ := derives_unique hdn hv (.newline hline) (.newline hline') hsides
    obtain ⟨rfl, -⟩ := List.cons.inj hends
    refine ⟨by simp, fun pos => ⟨.augAssign pos m (mark.lexeme.take 1).toString n, ?_, ?_⟩⟩
    · change Item.node <$> assignment pos m n (some mark.lexeme) = _
      rw [assignment, if_pos (assignable_of_bare hassignable)]
      rfl
    · rw [Node.bare, (augmented_text haug).2]

theorem returnStmt_means (ha : a ∈ (grammar .returnStmt).alternatives)
    (h : Fits Means a.body ts xs) : Means .returnStmt ts (a.tree .returnStmt ts xs) := by
  intro line hline
  obtain rfl := List.mem_singleton.mp ha
  obtain ⟨_, v, _, ys, ⟨word, hword, rfl, rfl⟩, hvalue, rfl, rfl⟩ := h
  rw [terminal_keyword] at hword
  have hheads : Heads (word :: v) := word_heads hword (by decide)
  rcases hvalue with ⟨x, ⟨n, hn, hd⟩, rfl⟩ | ⟨rfl, rfl⟩
  · refine states_branch rfl (transformAll_cons hn rfl) hheads ?_
    intro s us r r' hb heq _ _
    have hleading := leading_word hb heq hword (by decide)
    cases hb with
    | returns _ hline' =>
      obtain ⟨t, rest, rfl, ht⟩ := derives_opens hd
      obtain ⟨-, htail⟩ := List.cons.inj heq
      obtain ⟨rfl, -⟩ := List.cons.inj htail
      exact absurd hline' fun hk => ht.kind (by simp [hk])
    | returnsValue _ hd' hline' =>
      obtain ⟨rfl, htail⟩ := List.cons.inj heq
      simp only [List.nil_append, List.append_eq, List.append_assoc] at htail
      obtain ⟨rfl, rfl, hends⟩ := derives_unique hd hd' (.newline hline) (.newline hline') htail
      obtain ⟨rfl, -⟩ := List.cons.inj hends
      exact ⟨rfl, fun pos => ⟨_, rfl, rfl⟩⟩
    | _ => simp [leading] at hleading
  · refine states_branch rfl rfl hheads ?_
    intro s us r r' hb heq _ _
    have hleading := leading_word hb heq hword (by decide)
    cases hb with
    | returns =>
      obtain ⟨rfl, htail⟩ := List.cons.inj heq
      obtain ⟨rfl, -⟩ := List.cons.inj htail
      exact ⟨rfl, fun pos => ⟨_, rfl, rfl⟩⟩
    | returnsValue _ hd' =>
      obtain ⟨t, rest, rfl, ht⟩ := derives_opens hd'
      obtain ⟨-, htail⟩ := List.cons.inj heq
      obtain ⟨rfl, -⟩ := List.cons.inj htail
      exact absurd hline fun hk => ht.kind (by simp [hk])
    | _ => simp [leading] at hleading

/-- A statement that is one word. -/
theorem word_states {name : Label} {word : String} {make : Position → Node}
    (hname : grammar name = .plain (.keyword word))
    (hword : word ∉ ["elif", "else", "not", "lambda", "true", "false", "none"])
    (hbuild : ∀ pos, build pos name [] = .ok (.node (make pos)))
    (honly : ∀ {s us}, Builds (.statement s) us → leading s = some word →
      (∃ t line, us = [t, line]) ∧ ∀ pos, (make pos).bare = s)
    (ha : a ∈ (grammar name).alternatives) (h : Fits Means a.body ts xs) {line : Token} :
    States ts [line] (a.tree name ts xs) := by
  rw [hname] at ha
  obtain rfl := List.mem_singleton.mp ha
  obtain ⟨t, ht, rfl, rfl⟩ := h
  rw [terminal_keyword] at ht
  simp only [List.mem_cons, List.not_mem_nil, or_false, not_or] at hword
  refine states_branch (by rw [hname]; rfl) rfl (word_heads ht (by simp [hword])) ?_
  intro s us r r' hb heq _ _
  obtain ⟨⟨u, line', rfl⟩, hs⟩ := honly hb (leading_word hb heq ht (by simp [hword]))
  obtain ⟨rfl, htail⟩ := List.cons.inj heq
  obtain ⟨rfl, -⟩ := List.cons.inj htail
  exact ⟨rfl, fun pos => ⟨_, hbuild pos, hs pos⟩⟩

theorem breakStmt_means (ha : a ∈ (grammar .breakStmt).alternatives)
    (h : Fits Means a.body ts xs) : Means .breakStmt ts (a.tree .breakStmt ts xs) := by
  intro line _
  refine word_states rfl (by decide) (fun _ => rfl) (fun hb hleading => ?_) ha h
  cases hb with
  | breaks => exact ⟨⟨_, _, rfl⟩, fun _ => rfl⟩
  | _ => simp [leading] at hleading

theorem continueStmt_means (ha : a ∈ (grammar .continueStmt).alternatives)
    (h : Fits Means a.body ts xs) : Means .continueStmt ts (a.tree .continueStmt ts xs) := by
  intro line _
  refine word_states rfl (by decide) (fun _ => rfl) (fun hb hleading => ?_) ha h
  cases hb with
  | continues => exact ⟨⟨_, _, rfl⟩, fun _ => rfl⟩
  | _ => simp [leading] at hleading

theorem passStmt_means (ha : a ∈ (grammar .passStmt).alternatives)
    (h : Fits Means a.body ts xs) : Means .passStmt ts (a.tree .passStmt ts xs) := by
  intro line _
  refine word_states rfl (by decide) (fun _ => rfl) (fun hb hleading => ?_) ha h
  cases hb with
  | passes => exact ⟨⟨_, _, rfl⟩, fun _ => rfl⟩
  | _ => simp [leading] at hleading

theorem delStmt_means (ha : a ∈ (grammar .delStmt).alternatives) (h : Fits Means a.body ts xs) :
    Means .delStmt ts (a.tree .delStmt ts xs) := by
  intro line hline
  obtain rfl := List.mem_singleton.mp ha
  obtain ⟨_, v, _, _, ⟨word, hword, rfl, rfl⟩, ⟨x, ⟨n, hn, hd⟩, rfl⟩, rfl, rfl⟩ := h
  rw [terminal_keyword] at hword
  refine states_branch rfl (transformAll_cons hn rfl) (word_heads hword (by decide)) ?_
  intro s us r r' hb heq _ _
  have hleading := leading_word hb heq hword (by decide)
  cases hb with
  | delete _ hd' hline' =>
    obtain ⟨rfl, htail⟩ := List.cons.inj heq
    simp only [List.nil_append, List.append_eq, List.append_assoc] at htail
    obtain ⟨rfl, hindex, hends⟩ := derives_unique hd hd' (.newline hline) (.newline hline') htail
    obtain ⟨rfl, -⟩ := List.cons.inj hends
    cases n with
    | index => exact ⟨rfl, fun pos => ⟨_, rfl, by rw [Node.bare, hindex]⟩⟩
    | _ => cases hindex
  | _ => simp [leading] at hleading

/-! ### Blocks and lists of statements -/

/-- Nothing is left, or what closes a block. -/
def AtBlockEnd (ts : List Token) : Prop := ∀ t ∈ ts.head?, t.kind = .dedent

theorem atBlockEnd_noClause (h : AtBlockEnd r) : NoClause r := by
  intro t ht
  have hk := h t ht
  simp [Token.is, hk]

/-- A line between statements, or a statement. -/
abbrev listItem : Expansion := .either (.token .newline) (.rule .stmt)

theorem listItem_noClause (h : Fits Means listItem ts xs) : NoClause (ts ++ r) := by
  rcases h with ⟨t, ht, rfl, rfl⟩ | ⟨x, hx, rfl⟩
  · have hk : t.kind = .newline := (terminal_kind (by simp)).mp ht
    intro u hu
    obtain rfl : t = u := Option.some.inj hu
    simp [Token.is, hk]
  · exact heads_noClause hx.1

theorem listItems_noClause {parts : List (List Token × List Tree)}
    (h : ∀ p ∈ parts, Fits Means listItem p.1 p.2) (hr : AtBlockEnd r) :
    NoClause (parts.flatMap Prod.fst ++ r) := by
  cases parts with
  | nil => exact atBlockEnd_noClause hr
  | cons p parts =>
    rw [List.flatMap_cons, List.append_assoc]
    exact listItem_noClause (h p List.mem_cons_self)

theorem statements_noClause {ss : List Node} (h : Builds (.statements ss) us) (hr : AtBlockEnd r) :
    NoClause (us ++ r) := by
  cases h with
  | done => exact atBlockEnd_noClause hr
  | blank hline =>
    intro t ht
    obtain rfl := Option.some.inj ht
    simp [Token.is, hline]
  | next hs =>
    rw [List.append_assoc]
    exact heads_noClause (builds_heads hs)

/-- A list of statements means what is built from the same tokens. -/
theorem listItems_mean {parts : List (List Token × List Tree)} {ss : List Node}
    (h : ∀ p ∈ parts, Fits Means listItem p.1 p.2) (hb : Builds (.statements ss) us)
    (heq : parts.flatMap Prod.fst ++ r = us ++ r') (hr : AtBlockEnd r) (hr' : AtBlockEnd r') :
    us = parts.flatMap Prod.fst ∧ ∃ ns, transformAll (parts.flatMap Prod.snd) =
      .ok (ns.map Item.node) ∧ Node.bareList ns = ss := by
  induction parts generalizing us ss with
  | nil =>
    rw [List.flatMap_nil, List.nil_append] at heq
    subst heq
    cases hb with
    | done => exact ⟨rfl, [], rfl, rfl⟩
    | blank hline => exact nomatch hline.symm.trans (hr _ rfl)
    | next hs =>
      obtain ⟨t, rest, rfl, ht⟩ := builds_heads hs
      exact absurd (hr t rfl) (heads_kind ⟨t, rest, rfl, ht⟩).2.2
  | cons p parts ih =>
    obtain ⟨hp, hparts⟩ := List.forall_mem_cons.mp h
    obtain ⟨vs, ys⟩ := p
    rw [List.flatMap_cons, List.append_assoc] at heq
    rcases hp with ⟨t, ht, rfl, rfl⟩ | ⟨x, ⟨hheads, hstates⟩, rfl⟩
    · have hk : t.kind = .newline := (terminal_kind (by simp)).mp ht
      cases hb with
      | done =>
        subst heq
        exact nomatch hk.symm.trans (hr' t rfl)
      | blank hline hmore =>
        obtain ⟨rfl, htail⟩ := List.cons.inj heq
        obtain ⟨rfl, ns, hns, hss⟩ := ih hparts hmore htail
        exact ⟨rfl, ns, hns, hss⟩
      | next hs =>
        obtain ⟨u, rest, rfl, hu⟩ := builds_heads hs
        obtain ⟨rfl, -⟩ := List.cons.inj heq
        exact absurd hk (heads_kind ⟨t, rest, rfl, hu⟩).1
    · obtain ⟨t, rest, rfl, ht⟩ := hheads
      cases hb with
      | done =>
        subst heq
        exact absurd (hr' t rfl) (heads_kind ⟨t, rest, rfl, ht⟩).2.2
      | blank hline =>
        obtain ⟨rfl, -⟩ := List.cons.inj heq
        exact absurd hline (heads_kind ⟨t, rest, rfl, ht⟩).1
      | next hs hmore =>
        rw [List.append_assoc] at heq
        obtain ⟨rfl, n, hn, rfl⟩ := hstates hs (by simpa using heq) (listItems_noClause hparts hr)
          (statements_noClause hmore hr')
        rw [List.append_nil] at heq
        obtain ⟨rfl, ns, hns, rfl⟩ := ih hparts hmore (List.append_cancel_left heq)
        exact ⟨by simp, n :: ns, transformAll_cons hn hns, rfl⟩

theorem fileInput_means (ha : a ∈ (grammar .fileInput).alternatives)
    (h : Fits Means a.body ts xs) : Means .fileInput ts (a.tree .fileInput ts xs) := by
  intro ss hb
  obtain rfl := List.mem_singleton.mp ha
  obtain ⟨parts, hparts, rfl, rfl⟩ := h
  have hend : AtBlockEnd [] := by simp [AtBlockEnd]
  obtain ⟨-, ns, hns, hss⟩ := listItems_mean hparts hb rfl hend hend
  refine ⟨ns, transform_tree (· = .ok _) (.inr rfl) hns fun pos => ?_, hss⟩
  rw [Option.getD_none, build, mapM_node]
  rfl

theorem suite_means (ha : a ∈ (grammar .suite).alternatives) (h : Fits Means a.body ts xs) :
    Means .suite ts (a.tree .suite ts xs) := by
  obtain rfl := List.mem_singleton.mp ha
  obtain ⟨_, _, _, _, ⟨colon, hcolon, rfl, rfl⟩, ⟨_, _, _, _, ⟨line, hline, rfl, rfl⟩,
    ⟨_, _, _, _, ⟨indent, hindent, rfl, rfl⟩, ⟨_, _, _, _,
    ⟨us, _, _, _, hfirst, ⟨parts, hparts, rfl, rfl⟩, rfl, rfl⟩,
    ⟨dedent, hdedent, rfl, rfl⟩, rfl, rfl⟩, rfl, rfl⟩, rfl, rfl⟩, rfl, rfl⟩ := h
  rw [terminal_delimiter] at hcolon
  have hdedent : dedent.kind = .dedent := (terminal_kind (by simp)).mp hdedent
  refine ⟨⟨colon, _, rfl, hcolon⟩, fun {ss us' r r'} hb heq => ?_⟩
  have hall : ∀ p ∈ (us, _) :: parts, Fits Means listItem p.1 p.2 :=
    List.forall_mem_cons.mpr ⟨.inr hfirst, fun p hp => .inr (hparts p hp)⟩
  cases hb with
  | block _ _ _ hstatements hdedent' =>
    simp only [List.cons_append, List.nil_append, List.append_assoc, List.cons.injEq] at heq
    obtain ⟨rfl, rfl, rfl, heq⟩ := heq
    obtain ⟨rfl, ns, hns, rfl⟩ := listItems_mean hall hstatements
      ((List.append_assoc ..).trans heq) (by simpa [AtBlockEnd] using hdedent)
      (by simpa [AtBlockEnd] using hdedent')
    obtain ⟨rfl, -⟩ := List.cons.inj (List.append_cancel_left ((List.append_assoc ..).trans heq))
    rw [← List.append_nil (List.flatMap _ _)] at hns
    refine ⟨by simp, ns, transform_tree (· = .ok _) (.inr rfl) hns fun pos => ?_, rfl⟩
    rw [Option.getD_none, build, mapM_node]
    rfl

/-! ### Statements with blocks -/

theorem suite_halts {x : Tree} (h : Means .suite ts x) : Halts (ts ++ r) := by
  obtain ⟨⟨colon, rest, rfl, hcolon⟩, -⟩ := h
  exact .colon hcolon

theorem block_halts {ss : List Node} (h : Builds (.block ss) us) : Halts (us ++ r) := by
  cases h with
  | block hcolon => exact .colon hcolon

/-- An expression and the block behind it are determined. -/
theorem headed_block {x : Tree} {n : Node} {ss : List Node} {ws : List Token}
    (hd : Derives Readable (.expr .test n.bare) us) (hsuite : Means .suite ts x)
    (hd' : Derives Readable (.expr .test e) vs) (hblock : Builds (.block ss) ws)
    (heq : us ++ (ts ++ r) = vs ++ (ws ++ r')) :
    us = vs ∧ ts = ws ∧ r = r' ∧ n.bare = e ∧
      ∃ ns, transform x = .ok (.nodes ns) ∧ Node.bareList ns = ss := by
  obtain ⟨rfl, rfl, hrest⟩ := derives_unique hd hd' (suite_halts hsuite) (block_halts hblock) heq
  obtain ⟨rfl, hns⟩ := hsuite.2 hblock hrest
  exact ⟨rfl, rfl, List.append_cancel_left hrest, rfl, hns⟩

theorem elifClause_means (ha : a ∈ (grammar .elifClause).alternatives)
    (h : Fits Means a.body ts xs) : Means .elifClause ts (a.tree .elifClause ts xs) := by
  intro bs e us r r' hb heq hr'
  obtain rfl := List.mem_singleton.mp ha
  obtain ⟨_, _, _, _, ⟨word, hword, rfl, rfl⟩, ⟨u, v, _, _, ⟨x, ⟨n, hn, hd⟩, rfl⟩,
    ⟨y, hsuite, rfl⟩, rfl, rfl⟩, rfl, rfl⟩ := h
  rw [terminal_keyword] at hword
  cases hb with
  | noBranch =>
    obtain rfl := heq
    exact absurd hword (by simp [(hr' word rfl).1])
  | otherwise helse =>
    obtain ⟨rfl, -⟩ := List.cons.inj heq
    exact absurd ((is_iff.mp hword).2.symm.trans (is_iff.mp helse).2) (by decide)
  | branch _ hd' hblock hmore =>
    simp only [List.cons_append, List.nil_append, List.append_assoc, List.cons.injEq] at heq
    obtain ⟨rfl, heq⟩ := heq
    obtain ⟨rfl, rfl, -, rfl, ns, hns, rfl⟩ := headed_block hd hsuite hd' hblock heq
    refine ⟨n, ns, _, _, ?_, rfl, by simp, hmore⟩
    exact transform_tree (· = .ok _) (.inr rfl) (transformAll_cons hn (transformAll_cons hns rfl))
      fun pos => rfl

theorem elseClause_means (ha : a ∈ (grammar .elseClause).alternatives)
    (h : Fits Means a.body ts xs) : Means .elseClause ts (a.tree .elseClause ts xs) := by
  intro bs e us r r' hb heq hr'
  obtain rfl := List.mem_singleton.mp ha
  obtain ⟨_, v, _, _, ⟨word, hword, rfl, rfl⟩, ⟨y, hsuite, rfl⟩, rfl, rfl⟩ := h
  rw [terminal_keyword] at hword
  cases hb with
  | noBranch =>
    obtain rfl := heq
    exact absurd hword (by simp [(hr' word rfl).2])
  | otherwise _ hblock =>
    simp only [List.cons_append, List.nil_append, List.cons.injEq] at heq
    obtain ⟨rfl, heq⟩ := heq
    obtain ⟨rfl, ns, hns, rfl⟩ := hsuite.2 hblock heq
    refine ⟨rfl, ns, ?_, rfl, rfl⟩
    exact transform_tree (· = .ok _) (.inr rfl) (transformAll_cons hns rfl) fun pos => rfl
  | branch helif =>
    obtain ⟨rfl, -⟩ := List.cons.inj heq
    exact absurd ((is_iff.mp hword).2.symm.trans (is_iff.mp helif).2) (by decide)

/-- The clauses behind the first branch of a conditional. -/
theorem clauses_mean {parts : List (List Token × List Tree)} {ys : List Tree}
    {bs : List (Node × List Node)} {e : Option (List Node)}
    (hparts : ∀ p ∈ parts, Fits Means (.rule .elifClause) p.1 p.2)
    (hlast : Fits Means (.optional (.rule .elseClause)) vs ys) (hb : Builds (.branches bs e) us)
    (heq : parts.flatMap Prod.fst ++ vs ++ r = us ++ r') (hr : NoClause r) (hr' : NoClause r') :
    us = parts.flatMap Prod.fst ++ vs ∧ ∃ items,
      transformAll (parts.flatMap Prod.snd ++ ys) = .ok items ∧ ∀ pos front, ∃ more last,
        joinClauses pos front none items = .ok (.ifStmt pos (front ++ more) last) ∧
        Node.bareBranches more = bs ∧ Node.bareBody last = e := by
  induction parts generalizing us bs with
  | nil =>
    rcases hlast with ⟨x, hx, rfl⟩ | ⟨rfl, rfl⟩
    · obtain ⟨rfl, ns, hns, rfl, rfl⟩ := hx hb heq hr'
      exact ⟨rfl, _, transformAll_cons hns rfl, fun pos front =>
        ⟨[], some ns, by simp [joinClauses, pure, Except.pure], rfl, rfl⟩⟩
    · obtain rfl : r = us ++ r' := heq
      cases hb with
      | noBranch =>
        exact ⟨rfl, [], rfl, fun pos front =>
          ⟨[], none, by simp [joinClauses, pure, Except.pure], rfl, rfl⟩⟩
      | otherwise helse => exact absurd helse (by simp [(hr _ rfl).2])
      | branch helif => exact absurd helif (by simp [(hr _ rfl).1])
  | cons p parts ih =>
    obtain ⟨⟨x, hx, hp⟩, hparts⟩ := List.forall_mem_cons.mp hparts
    rw [List.flatMap_cons, List.append_assoc, List.append_assoc] at heq
    obtain ⟨n, ns, bs', us', hns, rfl, rfl, hmore⟩ := hx hb heq hr'
    rw [List.append_assoc] at heq
    obtain ⟨rfl, items, hitems, hjoin⟩ := ih hparts hmore
      ((List.append_assoc ..).trans (List.append_cancel_left heq))
    refine ⟨by simp, .branch n ns :: items, ?_, fun pos front => ?_⟩
    · rw [List.flatMap_cons, hp]
      exact transformAll_cons hns hitems
    · obtain ⟨more, last, hmade, rfl, rfl⟩ := hjoin pos (front ++ [(n, ns)])
      exact ⟨(n, ns) :: more, last, by rw [joinClauses, hmade]; simp, rfl, rfl⟩

theorem ifStmt_means (ha : a ∈ (grammar .ifStmt).alternatives) (h : Fits Means a.body ts xs) :
    Means .ifStmt ts (a.tree .ifStmt ts xs) := by
  obtain rfl := List.mem_singleton.mp ha
  obtain ⟨_, _, _, _, ⟨word, hword, rfl, rfl⟩, ⟨u, _, _, _, ⟨x, ⟨n, hn, hd⟩, rfl⟩,
    ⟨v, _, _, _, ⟨y, hsuite, rfl⟩, ⟨_, w, _, ys, ⟨parts, hparts, rfl, rfl⟩, hlast, rfl, rfl⟩,
    rfl, rfl⟩, rfl, rfl⟩, rfl, rfl⟩ := h
  rw [terminal_keyword] at hword
  refine ⟨word_heads hword (by decide), fun {s us r r'} hb heq hr hr' => ?_⟩
  have hleading := leading_word hb heq hword (by decide)
  cases hb with
  | conditional _ hd' hblock hbranches =>
    simp only [List.cons_append, List.nil_append, List.append_assoc, List.append_nil,
      List.cons.injEq] at heq
    obtain ⟨rfl, heq⟩ := heq
    obtain ⟨rfl, rfl, heq, rfl, ns, hns, rfl⟩ := headed_block hd hsuite hd' hblock heq
    obtain ⟨rfl, items, hitems, hjoin⟩ := clauses_mean hparts hlast hbranches
      ((List.append_assoc ..).trans heq) hr hr'
    refine ⟨by simp, transform_tree (fun made => ∃ m, made = .ok (.node m) ∧ m.bare = _) (.inr rfl)
      (transformAll_cons hn (transformAll_cons hns hitems)) fun pos => ?_⟩
    obtain ⟨more, last, hmade, hmore, helse⟩ := hjoin pos [(n, ns)]
    refine ⟨.ifStmt pos ((n, ns) :: more) last, ?_, ?_⟩
    · change Item.node <$> joinClauses pos [(n, ns)] none items = _
      rw [hmade]
      rfl
    · rw [Node.bare, Node.bareBranches, hmore, helse]
  | _ => simp [leading] at hleading

theorem whileStmt_means (ha : a ∈ (grammar .whileStmt).alternatives) (h : Fits Means a.body ts xs) :
    Means .whileStmt ts (a.tree .whileStmt ts xs) := by
  obtain rfl := List.mem_singleton.mp ha
  obtain ⟨_, _, _, _, ⟨word, hword, rfl, rfl⟩, ⟨u, v, _, _, ⟨x, ⟨n, hn, hd⟩, rfl⟩,
    ⟨y, hsuite, rfl⟩, rfl, rfl⟩, rfl, rfl⟩ := h
  rw [terminal_keyword] at hword
  refine ⟨word_heads hword (by decide), fun {s us r r'} hb heq _ _ => ?_⟩
  have hleading := leading_word hb heq hword (by decide)
  cases hb with
  | whileLoop _ hd' hblock =>
    simp only [List.cons_append, List.nil_append, List.append_assoc, List.append_nil,
      List.cons.injEq] at heq
    obtain ⟨rfl, heq⟩ := heq
    obtain ⟨rfl, rfl, -, rfl, ns, hns, rfl⟩ := headed_block hd hsuite hd' hblock heq
    refine ⟨by simp, transform_tree (fun made => ∃ m, made = .ok (.node m) ∧ m.bare = _) (.inr rfl)
      (transformAll_cons hn (transformAll_cons hns rfl)) fun pos => ⟨_, rfl, rfl⟩⟩
  | _ => simp [leading] at hleading

theorem forStmt_means (ha : a ∈ (grammar .forStmt).alternatives) (h : Fits Means a.body ts xs) :
    Means .forStmt ts (a.tree .forStmt ts xs) := by
  obtain rfl := List.mem_singleton.mp ha
  obtain ⟨_, _, _, _, ⟨word, hword, rfl, rfl⟩, ⟨_, _, _, _, ⟨name, hname, rfl, rfl⟩,
    ⟨_, _, _, _, ⟨within, hwithin, rfl, rfl⟩, ⟨u, v, _, _, ⟨x, ⟨n, hn, hd⟩, rfl⟩,
    ⟨y, hsuite, rfl⟩, rfl, rfl⟩, rfl, rfl⟩, rfl, rfl⟩, rfl, rfl⟩ := h
  rw [terminal_keyword] at hword
  refine ⟨word_heads hword (by decide), fun {s us r r'} hb heq _ _ => ?_⟩
  have hleading := leading_word hb heq hword (by decide)
  cases hb with
  | forLoop _ _ _ hd' hblock =>
    simp only [List.cons_append, List.nil_append, List.append_assoc, List.append_nil,
      List.cons.injEq] at heq
    obtain ⟨rfl, rfl, rfl, heq⟩ := heq
    obtain ⟨rfl, rfl, -, rfl, ns, hns, rfl⟩ := headed_block hd hsuite hd' hblock heq
    refine ⟨by simp, transform_tree (fun made => ∃ m, made = .ok (.node m) ∧ m.bare = _) (.inr rfl)
      (transformAll_cons rfl (transformAll_cons hn (transformAll_cons hns rfl))) fun pos =>
        ⟨_, rfl, rfl⟩⟩
  | _ => simp [leading] at hleading

theorem funcdef_means (ha : a ∈ (grammar .funcdef).alternatives) (h : Fits Means a.body ts xs) :
    Means .funcdef ts (a.tree .funcdef ts xs) := by
  obtain rfl := List.mem_singleton.mp ha
  obtain ⟨_, _, _, _, ⟨word, hword, rfl, rfl⟩, ⟨_, _, _, _, ⟨name, hname, rfl, rfl⟩,
    ⟨_, _, _, _, ⟨opening, hopening, rfl, rfl⟩, ⟨u, _, zs, _, hparams,
    ⟨_, v, _, _, ⟨closing, hclosing, rfl, rfl⟩, ⟨y, hsuite, rfl⟩, rfl, rfl⟩, rfl, rfl⟩, rfl, rfl⟩,
    rfl, rfl⟩, rfl, rfl⟩ := h
  rw [terminal_keyword] at hword
  rw [terminal_delimiter] at hclosing
  refine ⟨word_heads hword (by decide), fun {s us r r'} hb heq _ _ => ?_⟩
  have hleading := leading_word hb heq hword (by decide)
  cases hb with
  | function _ _ _ hnames' hnodup hclosing' hblock =>
    simp only [List.cons_append, List.nil_append, List.append_assoc, List.append_nil,
      List.cons.injEq] at heq
    obtain ⟨rfl, rfl, rfl, heq⟩ := heq
    rcases hparams with ⟨x, ⟨names, hnames, hx⟩, rfl⟩ | ⟨rfl, rfl⟩
    · obtain ⟨rfl, rfl, hrest⟩ := names_unique hnames hnames' hclosing hclosing' (by decide) heq
      obtain ⟨rfl, hbody⟩ := List.cons.inj hrest
      obtain ⟨rfl, ns, hns, rfl⟩ := hsuite.2 hblock hbody
      refine ⟨by simp, transform_tree
        (fun made => ∃ m, made = .ok (.node m) ∧ m.bare = _) (.inr rfl)
        (transformAll_cons rfl (transformAll_cons (hx hnodup) (transformAll_cons hns rfl)))
        fun pos => ⟨_, rfl, rfl⟩⟩
    · obtain ⟨rfl, rfl, hrest⟩ := names_unique .nil hnames' hclosing hclosing' (by decide) heq
      obtain ⟨rfl, hbody⟩ := List.cons.inj hrest
      obtain ⟨rfl, ns, hns, rfl⟩ := hsuite.2 hblock hbody
      refine ⟨by simp, transform_tree
        (fun made => ∃ m, made = .ok (.node m) ∧ m.bare = _) (.inr rfl)
        (transformAll_cons rfl (transformAll_cons hns rfl)) fun pos => ⟨_, rfl, rfl⟩⟩
  | _ => simp [leading] at hleading

/-! ### Inlined rules -/

theorem simpleStmt_means (ha : a ∈ (grammar .simpleStmt).alternatives)
    (h : Fits Means a.body ts xs) : Means .simpleStmt ts (a.tree .simpleStmt ts xs) := by
  obtain rfl := List.mem_singleton.mp ha
  obtain ⟨us, _, _, _, hstatement, ⟨line, hline, rfl, rfl⟩, rfl, rfl⟩ := h
  have hline : line.kind = .newline := (terminal_kind (by simp)).mp hline
  obtain ⟨x, hx, rfl⟩ : ∃ x, States us [line] x ∧ _ = [x] := by
    rcases hstatement with ⟨x, hx, h⟩ | ⟨x, hx, h⟩ | ⟨x, hx, h⟩ | ⟨x, hx, h⟩ | ⟨x, hx, h⟩ |
      ⟨x, hx, h⟩ | ⟨x, hx, h⟩ | ⟨x, hx, h⟩ <;> exact ⟨x, hx hline, h⟩
  obtain ⟨⟨t, rest, rfl, ht⟩, hstates⟩ := hx
  refine ⟨⟨t, _, rfl, ht⟩, fun {s us r r'} hb heq hr hr' => ?_⟩
  rw [List.append_nil] at heq ⊢
  exact hstates hb heq hr hr'

/-- An inlined rule whose parts are statements. -/
theorem states_inline {name : Label} (names : List Label)
    (hname : (grammar name) = ⟨true, names.map fun next => ⟨.rule next, none⟩⟩)
    (hnames : ∀ next ∈ names, ∀ {us x}, Means next us x → States us [] x)
    (ha : a ∈ (grammar name).alternatives) (h : Fits Means a.body ts xs) :
    States ts [] (a.tree name ts xs) := by
  rw [hname] at ha
  obtain ⟨next, hnext, rfl⟩ := List.mem_map.mp ha
  obtain ⟨x, hx, rfl⟩ := h
  rw [tree_inline (by rw [hname])]
  exact hnames next hnext hx

theorem stmt_means (ha : a ∈ (grammar .stmt).alternatives) (h : Fits Means a.body ts xs) :
    States ts [] (a.tree .stmt ts xs) :=
  states_inline [.simpleStmt, .compoundStmt] rfl (by simp [Means]) ha h

theorem compoundStmt_means (ha : a ∈ (grammar .compoundStmt).alternatives)
    (h : Fits Means a.body ts xs) : States ts [] (a.tree .compoundStmt ts xs) :=
  states_inline [.ifStmt, .whileStmt, .forStmt, .funcdef] rfl (by simp [Means]) ha h

/-! ### All trees -/

theorem means_step (hsensible : Sensible whole) {name : Label}
    (ha : a ∈ (grammar name).alternatives)
    (hts : ts <:+: whole) (h : Fits Means a.body ts xs) : Means name ts (a.tree name ts xs) := by
  cases name with
  | fileInput => exact fileInput_means ha h
  | stmt => exact stmt_means ha h
  | simpleStmt => exact simpleStmt_means ha h
  | exprStmt => exact exprStmt_means ha h
  | assignStmt => exact assignStmt_means ha h
  | augAssignStmt => exact augAssignStmt_means ha h
  | returnStmt => exact returnStmt_means ha h
  | breakStmt => exact breakStmt_means ha h
  | continueStmt => exact continueStmt_means ha h
  | passStmt => exact passStmt_means ha h
  | delStmt => exact delStmt_means ha h
  | compoundStmt => exact compoundStmt_means ha h
  | ifStmt => exact ifStmt_means ha h
  | elifClause => exact elifClause_means ha h
  | elseClause => exact elseClause_means ha h
  | whileStmt => exact whileStmt_means ha h
  | forStmt => exact forStmt_means ha h
  | funcdef => exact funcdef_means ha h
  | params => exact params_means ha h
  | suite => exact suite_means ha h
  | test => exact test_means ha h
  | lambdef => exact lambdef_means hsensible hts ha h
  | orTest => exact orTest_means ha h
  | andTest => exact andTest_means ha h
  | notTest => exact notTest_means ha h
  | comparison => exact comparison_means ha h
  | arith => exact arith_means ha h
  | term => exact term_means ha h
  | factor => exact factor_means ha h
  | suffixed => exact suffixed_means ha h
  | arguments => exact arguments_means ha h
  | atom => exact atom_means hsensible hts ha h
  | pair => exact pair_means ha h
  | _ => trivial

/-- A tree of a text becomes the program that is built from the tokens of the text, if one is. -/
theorem sentence_means {tree : Tree} {ss : List Node} (h : Sentence ts tree)
    (hsensible : Sensible ts)
    (hb : Builds (.statements ss) ts) :
    ∃ ns, transform tree = .ok (.node (.program Position.start ns)) ∧ Node.bareList ns = ss := by
  obtain ⟨x, hx, heq⟩ := h.fits (means_step hsensible) (List.infix_refl ts)
  obtain rfl := List.cons.inj heq |>.1
  exact hx hb

end Offside.Reference
