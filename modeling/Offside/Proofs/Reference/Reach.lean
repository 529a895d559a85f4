import Offside.Proofs.Parser.Clause
import Offside.Proofs.Reference.Flaw

/-!
How far the grammar goes along with what is built. The tokens of a derivation are covered, unless
they have a flaw; then those in front of it can be gone on with in another way, and the flaw shows
at a mark or at a token of the layout.
-/

namespace Offside.Reference

open Grammar
open Offside.Parser (commaBefore hasTrailingComma is_iff Readable)

def Covered (e : Expansion) (ts : List Token) : Prop := ∃ xs, Covers e ts xs

/-- Such tokens, or tokens that have a flaw and could be such if they went on in another way there.
-/
def Reach (S : List Token → Prop) (ts : List Token) : Prop :=
  S ts ∨ ∃ front mark back more, ts = front ++ mark :: back ∧ S (front ++ more) ∧
    Flawed (front ++ [mark]) ∧ (mark.kind = .delimiter ∨ ¬ mark.kind.OfLine)

variable {S T R : List Token → Prop} {ts us vs front : List Token} {t : Token} {e e' : Expansion}
  {name : Label} {a : Alternative}

namespace Reach

theorem imp (h : Reach S ts) (hst : ∀ {us}, S us → T us) : Reach T ts := by
  rcases h with h | ⟨front, mark, back, more, hts, hmore, hflawed⟩
  · exact .inl (hst h)
  · exact .inr ⟨front, mark, back, more, hts, hst hmore, hflawed⟩

theorem exists_such (h : Reach S ts) : ∃ us, S us := by
  rcases h with h | ⟨front, mark, back, more, -, hmore, -⟩
  · exact ⟨ts, h⟩
  · exact ⟨_, hmore⟩

theorem join (h : Reach S us) (h' : Reach T vs) (hst : ∀ {us vs}, S us → T vs → R (us ++ vs)) :
    Reach R (us ++ vs) := by
  rcases h with h | ⟨front, mark, back, more, rfl, hmore, hflawed, hmark⟩
  · rcases h' with h' | ⟨front, mark, back, more, rfl, hmore, hflawed, hmark⟩
    · exact .inl (hst h h')
    · refine .inr ⟨us ++ front, mark, back, more, by simp, ?_, ?_, hmark⟩
      · rw [List.append_assoc]
        exact hst h hmore
      · rw [List.append_assoc]
        exact hflawed.behind us
  · obtain ⟨ws, hws⟩ := h'.exists_such
    refine .inr ⟨front, mark, back ++ vs, more ++ ws, by simp, ?_, hflawed, hmark⟩
    rw [← List.append_assoc]
    exact hst hmore hws

/-- With more tokens behind. -/
theorem before (h : Reach S us) (vs : List Token) (hst : ∀ {us}, S us → T (us ++ vs)) :
    Reach T (us ++ vs) :=
  h.join (T := (· = vs)) (.inl rfl) fun hus hvs => hvs ▸ hst hus

theorem behind (h : Reach S us) (ts : List Token) (hst : ∀ {us}, S us → T (ts ++ us)) :
    Reach T (ts ++ us) :=
  join (S := (· = ts)) (.inl rfl) h fun hts hus => hts ▸ hst hus

end Reach

/-! ### Covering -/

namespace Covered

theorem token {c : Terminal} (h : t.terminal = c) : Covered (.token c) [t] := ⟨_, .token h⟩

theorem rule (i : Nat) (ha : (grammar name).alternatives[i]? = some a) (h : Covered a.body ts) :
    Covered (.rule name) ts := by
  obtain ⟨xs, hxs⟩ := h
  exact ⟨_, .rule (List.mem_of_getElem? ha) hxs⟩

theorem both (h : Covered e us) (h' : Covered e' vs) : Covered (.both e e') (us ++ vs) := by
  obtain ⟨xs, hxs⟩ := h
  obtain ⟨ys, hys⟩ := h'
  exact ⟨_, .both hxs hys⟩

theorem left (h : Covered e ts) : Covered (.either e e') ts := by
  obtain ⟨xs, hxs⟩ := h
  exact ⟨_, .left hxs⟩

theorem right (h : Covered e' ts) : Covered (.either e e') ts := by
  obtain ⟨xs, hxs⟩ := h
  exact ⟨_, .right hxs⟩

theorem none : Covered (.optional e) [] := ⟨_, .right .empty⟩

theorem done : Covered (.many e) [] := ⟨_, .done⟩

theorem more (h : Covered e us) (h' : Covered (.many e) vs) : Covered (.many e) (us ++ vs) := by
  obtain ⟨xs, hxs⟩ := h
  obtain ⟨ys, hys⟩ := h'
  exact ⟨_, .more hxs hys⟩

theorem headed {c : Terminal} (ht : t.terminal = c) (h : Covered e ts) :
    Covered (.both (.token c) e) (t :: ts) := both (token ht) h

theorem closed {c : Terminal} (h : Covered e ts) (ht : t.terminal = c) :
    Covered (.both e (.token c)) (ts ++ [t]) := both h (token ht)

theorem append (h : Covered (.many e) us) (h' : Covered (.many e) vs) :
    Covered (.many e) (us ++ vs) := by
  obtain ⟨xs, hxs⟩ := h
  generalize hm : Expansion.many e = m at hxs
  induction hxs with
  | done =>
    cases hm
    exact h'
  | more hfirst _ _ ih =>
    cases hm
    rw [List.append_assoc]
    exact more ⟨_, hfirst⟩ (ih rfl)
  | _ => cases hm

theorem single (h : Covered e us) : Covered (.listed e) us := by
  have hlisted : Covered (.listed e) (us ++ []) := both h done
  rwa [List.append_nil] at hlisted

/-- One list behind another. -/
theorem listed {comma : Token} (h : Covered (.listed e) us)
    (hcomma : comma.is .delimiter "," = true) (h' : Covered (.listed e) vs) :
    Covered (.listed e) (us ++ comma :: vs) := by
  obtain ⟨xs, hxs⟩ := h
  obtain ⟨ys, hys⟩ := h'
  cases hxs with
  | both hfirst hmore =>
    cases hys with
    | both hfirst' hmore' =>
      have hnext := more (headed (terminal_delimiter.mpr hcomma) ⟨_, hfirst'⟩) ⟨_, hmore'⟩
      rw [List.append_assoc]
      exact both ⟨_, hfirst⟩ (append ⟨_, hmore⟩ hnext)

end Covered

/-- A list that may end in a comma, or none. -/
abbrev sequence (e : Expansion) : Expansion :=
  .optional (.both (.listed e) (.optional (.mark ",")))

theorem sequence_single (h : Covered e us) : Covered (sequence e) us := by
  have hclosed := h.single.both (Covered.none (e := .mark ","))
  rw [List.append_nil] at hclosed
  exact hclosed.left

theorem sequence_item {comma : Token} (h : Covered e us) (hcomma : comma.is .delimiter "," = true)
    (h' : Covered (sequence e) vs) : Covered (sequence e) (us ++ comma :: vs) := by
  obtain ⟨xs, hxs⟩ := h'
  cases hxs with
  | left hlist =>
    cases hlist with
    | both hlisted hclosing =>
      have hall := (h.single.listed hcomma ⟨_, hlisted⟩).both ⟨_, hclosing⟩
      rw [List.append_assoc] at hall
      exact hall.left
  | right hnone =>
    cases hnone
    exact (h.single.both (Covered.token (terminal_delimiter.mpr hcomma)).left).left

/-! ### Names -/

theorem names_cases {names : List String} (h : Names us names) :
    (us = [] ∨ Covered (.listed (.token .name)) us ∨ ∃ vs comma, us = vs ++ [comma] ∧
      comma.is .delimiter "," = true ∧ Covered (.listed (.token .name)) vs) := by
  have hname {t : Token} (ht : t.kind = .identifier) : Covered (.token .name) [t] :=
    .token ((terminal_kind (by simp)).mpr ht)
  induction h with
  | nil => exact .inl rfl
  | last ht => exact .inr (.inl (hname ht).single)
  | @cons t comma us names ht hcomma hnames ih =>
    rcases ih with rfl | hlisted | ⟨vs, comma', rfl, hcomma', hlisted⟩
    · exact .inr (.inr ⟨[t], comma, rfl, hcomma, (hname ht).single⟩)
    · exact .inr (.inl ((hname ht).single.listed hcomma hlisted))
    · exact .inr (.inr ⟨t :: comma :: vs, comma', rfl, hcomma',
        (hname ht).single.listed hcomma hlisted⟩)

theorem names_marks {names : List String} (h : Names us names) :
    ∀ t ∈ us, t.kind = .identifier ∨ t.is .delimiter "," = true := by
  induction h with
  | nil => exact List.forall_mem_nil _
  | last ht => exact List.forall_mem_singleton.mpr (.inl ht)
  | cons ht hcomma _ ih =>
    exact List.forall_mem_cons.mpr ⟨.inl ht, List.forall_mem_cons.mpr ⟨.inr hcomma, ih⟩⟩

theorem commaBefore_comma {close : String} {comma mark : Token}
    (h : ∀ t ∈ us, t.is .delimiter close = false) (hclose : close ≠ ",")
    (hcomma : comma.is .delimiter "," = true) (hmark : mark.is .delimiter close = true) :
    commaBefore close (us ++ [comma, mark]) = true := by
  have hother : comma.is .delimiter close = false := by
    obtain ⟨-, hl⟩ := is_iff.mp hcomma
    simp [Token.is, hl, hclose.symm]
  induction us with
  | nil => simp [commaBefore, hcomma, hmark, hother]
  | cons t us ih =>
    obtain ⟨ht, hus⟩ := List.forall_mem_cons.mp h
    obtain ⟨u, rest, hrest⟩ : ∃ u rest, us ++ [comma, mark] = u :: rest :=
      List.exists_cons_of_ne_nil (by simp)
    have hlater := ih hus
    rw [hrest] at hlater
    rw [List.cons_append, hrest, commaBefore, ht, hlater, Bool.or_true]
    rfl

/-- A word, what stands between it and its parameters, those, and the mark behind. -/
def Headline (word : Token) (title : List Token) (mark : Token) (ts : List Token) : Prop :=
  ∃ us, Covered (.optional (.rule .params)) us ∧ ts = word :: (title ++ us ++ [mark])

/-- Parameters are covered, or end in a comma, which is a flaw. -/
theorem names_reach {names : List String} {opens close : String} {word mark : Token}
    {title : List Token} (h : Names us names)
    (hpair : (opens, close) ∈ [("lambda", ":"), ("def", ")")])
    (hword : word.is .keyword opens = true)
    (hmark : mark.is .delimiter close = true)
    (htitle : ∀ u ∈ title, u.is .delimiter close = false) :
    Reach (Headline word title mark) (word :: (title ++ us ++ [mark])) := by
  have hparams {vs : List Token} (hvs : Covered (.listed (.token .name)) vs) :
      Covered (.optional (.rule .params)) vs := (Covered.rule 0 rfl hvs).left
  rcases names_cases h with rfl | hlisted | ⟨vs, comma, rfl, hcomma, hlisted⟩
  · exact .inl ⟨[], .none, rfl⟩
  · exact .inl ⟨us, hparams hlisted, rfl⟩
  · -- the list could go on with another name
    let more : Token := ⟨.identifier, "", .start⟩
    have hmore : Covered (.token .name) [more] := .token rfl
    have hclose : close ≠ "," := by
      rintro rfl
      simp at hpair
    have hother : ∀ u ∈ title ++ vs, u.is .delimiter close = false := by
      refine List.forall_mem_append.mpr ⟨htitle, fun u hu => ?_⟩
      rcases names_marks h u (List.mem_append_left _ hu) with hk | hl
      · simp [Token.is, hk]
      · obtain ⟨-, hl⟩ := is_iff.mp hl
        simp [Token.is, hl, hclose.symm]
    have hbefore := commaBefore_comma hother hclose hcomma hmark
    refine .inr ⟨word :: (title ++ (vs ++ [comma])), mark, [], [more, mark], by simp, ?_, .inl ?_,
      .inl (is_iff.mp hmark).1⟩
    · exact ⟨vs ++ comma :: [more], hparams (hlisted.listed hcomma hmore.single), by simp⟩
    · have hlist : title ++ (vs ++ [comma]) ++ [mark] = title ++ vs ++ [comma, mark] := by simp
      simp only [List.mem_cons, Prod.mk.injEq, List.not_mem_nil, or_false] at hpair
      rw [List.cons_append, hlist, hasTrailingComma]
      rcases hpair with ⟨rfl, rfl⟩ | ⟨rfl, rfl⟩
      · rw [hword, hbefore]
        rfl
      · rw [hword, hbefore, Bool.or_comm (_ && _)]
        rfl

/-! ### Expressions -/

/-- The rule of a layer. -/
def label : Symbol → Label
  | .test => .test
  | .lambdef => .lambdef
  | .orTest => .orTest
  | .andTest => .andTest
  | .notTest => .notTest
  | .comparison => .comparison
  | .arith => .arith
  | .term => .term
  | .factor => .factor
  | .suffixed => .suffixed
  | .atom => .atom

def PhraseReach : Phrase → List Token → Prop
  | .expr s _, ts => Reach (Covered (.rule (label s))) ts
  | .items _, ts => Reach (Covered (sequence (.rule .test))) ts
  | .pairs _, ts => Reach (Covered (sequence (.rule .pair))) ts

theorem covered_unit {s s' : Symbol} (hs : s.Includes s') (h : Covered (.rule (label s')) ts) :
    Covered (.rule (label s)) ts := by
  cases hs with
  | lambdef => exact .rule 1 rfl h
  | _ => exact .rule 0 rfl h

theorem terminal_spelled {c : Terminal} {text : String} (h : (c, text) ∈
    [(.plus, "+"), (.minus, "-"), (.star, "*"), (.slash, "/"), (.percent, "%"),
      (.operator "=", "=")]) (hk : t.kind = .operator) (hl : t.lexeme = text) : t.terminal = c :=
  (terminal_mark h).mpr (is_iff.mpr ⟨hk, hl⟩)

theorem covered_binary {s s' : Symbol} {op : String} {ws : List Token} (hop : Operator s ws op s')
    (h : Covered (.rule (label s)) us) (h' : Covered (.rule (label s')) vs) :
    Covered (.rule (label s)) (us ++ (ws ++ vs)) := by
  cases hop with
  | or ht | and ht => exact .rule 1 rfl (h.both (h'.headed (terminal_keyword.mpr ht)))
  | compare hk hl => exact .rule 1 rfl (h.both (h'.headed (terminal_comparison.mpr ⟨hk, hl⟩)))
  | within ht => exact .rule 2 rfl (h.both (h'.headed (terminal_keyword.mpr ht)))
  | without ht hu =>
    have hwords := (Covered.token (terminal_keyword.mpr hu)).headed (terminal_keyword.mpr ht)
    exact .rule 3 rfl (h.both (hwords.both h'))
  | sum hk hl =>
    simp only [List.mem_cons, List.not_mem_nil, or_false] at hl
    rcases hl with hl | hl
    · exact .rule 1 rfl (h.both (h'.headed (terminal_spelled (by simp) hk hl)))
    · exact .rule 2 rfl (h.both (h'.headed (terminal_spelled (by simp) hk hl)))
  | product hk hl =>
    simp only [List.mem_cons, List.not_mem_nil, or_false] at hl
    rcases hl with hl | hl | hl
    · exact .rule 1 rfl (h.both (h'.headed (terminal_spelled (by simp) hk hl)))
    · exact .rule 2 rfl (h.both (h'.headed (terminal_spelled (by simp) hk hl)))
    · exact .rule 3 rfl (h.both (h'.headed (terminal_spelled (by simp) hk hl)))

theorem covered_leaf {n : Node} (h : Readable t n) : Covered (.rule .atom) [t] := by
  obtain ⟨e, -, he⟩ := h
  unfold Parser.atom? at he
  split at he
  · next hk => exact .rule 1 rfl (.token ((terminal_kind (by simp)).mpr hk))
  · next hk => exact .rule 2 rfl (.token ((terminal_kind (by simp)).mpr hk))
  · next hk => exact .rule 3 rfl (.token ((terminal_kind (by simp)).mpr hk))
  · next hk => exact .rule 0 rfl (.token ((terminal_kind (by simp)).mpr hk))
  · next hk =>
    split_ifs at he with htrue hfalse hnone
    · exact .rule 4 rfl (.token (terminal_keyword.mpr (is_iff.mpr ⟨hk, htrue⟩)))
    · exact .rule 5 rfl (.token (terminal_keyword.mpr (is_iff.mpr ⟨hk, hfalse⟩)))
    · exact .rule 6 rfl (.token (terminal_keyword.mpr (is_iff.mpr ⟨hk, hnone⟩)))
  · cases he

theorem covered_arguments (h : Covered (sequence (.rule .test)) ts) :
    Covered (.optional (.rule .arguments)) ts := by
  obtain ⟨xs, hxs⟩ := h
  cases hxs with
  | left hlist => exact (Covered.rule 0 rfl ⟨_, hlist⟩).left
  | right hnone => exact .right ⟨_, hnone⟩

/-- An expression between two brackets. -/
theorem reach_enclosed {opening closing : Token} {left right : String} (h : Reach (Covered e) us)
    (hopening : opening.is .delimiter left = true) (hclosing : closing.is .delimiter right = true) :
    Reach (Covered (.both (.mark left) (.both e (.mark right)))) (opening :: us ++ [closing]) := by
  have hclosed := h.before [closing] fun h => h.closed (terminal_delimiter.mpr hclosing)
  exact hclosed.behind [opening] fun h => h.headed (terminal_delimiter.mpr hopening)

theorem reach_pair {colon : Token} (h : Reach (Covered (.rule .test)) us)
    (hcolon : colon.is .delimiter ":" = true) (h' : Reach (Covered (.rule .test)) vs) :
    Reach (Covered (.rule .pair)) (us ++ colon :: vs) := by
  have hvalue := h'.behind [colon] fun h' => h'.headed (terminal_delimiter.mpr hcolon)
  exact h.join hvalue fun h h' => .rule 0 rfl (h.both h')

/-- Tokens behind these. -/
def Behind (ts : List Token) (S : List Token → Prop) (us : List Token) : Prop :=
  ∃ vs, us = ts ++ vs ∧ S vs

theorem reach_behind (h : Reach S us) (ts : List Token) : Reach (Behind ts S) (ts ++ us) :=
  h.behind ts fun h => ⟨_, rfl, h⟩

theorem reach_item {comma : Token} (h : Reach (Covered e) us)
    (hcomma : comma.is .delimiter "," = true)
    (h' : Reach (Covered (sequence e)) vs) : Reach (Covered (sequence e)) (us ++ comma :: vs) := by
  refine h.join (reach_behind h' [comma]) fun h h' => ?_
  obtain ⟨vs, rfl, h'⟩ := h'
  exact sequence_item h hcomma h'

theorem reach_lambda {names : List String} {word colon : Token} (hnames : Names us names)
    (hword : word.is .keyword "lambda" = true) (hcolon : colon.is .delimiter ":" = true)
    (h : Reach (Covered (.rule .test)) vs) :
    Reach (Covered (.rule .lambdef)) (word :: us ++ colon :: vs) := by
  have hhead : Reach (Headline word [] colon) (word :: ([] ++ us ++ [colon])) :=
    names_reach hnames (by simp) hword hcolon (List.forall_mem_nil _)
  have hsplit : word :: us ++ colon :: vs = word :: ([] ++ us ++ [colon]) ++ vs := by simp
  rw [hsplit]
  refine hhead.join h fun hhead h => ?_
  obtain ⟨ws, hws, rfl⟩ := hhead
  have hall := (hws.both (h.headed (terminal_delimiter.mpr hcolon))).headed
    (terminal_keyword.mpr hword)
  have hrule : Covered (.rule .lambdef) _ := .rule 0 rfl hall
  simpa using hrule

theorem derives_reaches {p : Phrase} (h : Derives Readable p ts) : PhraseReach p ts := by
  induction h with
  | unit hs _ ih => exact ih.imp (covered_unit hs)
  | lambda ht hnames _ hcolon _ ih => exact reach_lambda hnames ht hcolon ih
  | @binary _ _ _ _ _ ws _ _ _ hop _ iha ihb =>
    rw [List.append_assoc]
    refine iha.join (reach_behind ihb ws) fun h h' => ?_
    obtain ⟨vs, rfl, h'⟩ := h'
    exact covered_binary hop h h'
  | negation ht _ ih =>
    exact ih.behind [_] fun h => .rule 1 rfl (h.headed (terminal_keyword.mpr ht))
  | minus ht _ ih =>
    exact ih.behind [_] fun h => .rule 1 rfl (h.headed ((terminal_mark (by simp)).mpr ht))
  | call _ ho _ hc ihf ihs =>
    rw [List.append_assoc]
    exact ihf.join (reach_enclosed (ihs.imp covered_arguments) ho hc)
      fun h h' => .rule 1 rfl (h.both h')
  | index _ ho _ hc iha ihi =>
    rw [List.append_assoc]
    exact iha.join (reach_enclosed ihi ho hc) fun h h' => .rule 2 rfl (h.both h')
  | member _ hd hn ih =>
    have hname := Covered.token ((terminal_kind (c := .name) (by simp)).mpr hn)
    exact ih.before _ fun h => .rule 3 rfl (h.both (hname.headed (terminal_delimiter.mpr hd)))
  | leaf hl => exact .inl (covered_leaf hl)
  | parens ho _ hc ih => exact (reach_enclosed ih ho hc).imp fun h => .rule 7 rfl h
  | list ho _ hc ih => exact (reach_enclosed ih ho hc).imp fun h => .rule 8 rfl h
  | map ho _ hc ih => exact (reach_enclosed ih ho hc).imp fun h => .rule 9 rfl h
  | noItems | noPairs => exact .inl .none
  | lastItem _ ih => exact ih.imp sequence_single
  | item _ hcomma _ ih ihs => exact reach_item ih hcomma ihs
  | lastPair _ hcolon _ ihk ihe => exact (reach_pair ihk hcolon ihe).imp sequence_single
  | pair _ hcolon _ hcomma _ ihk ihe ihs =>
    exact reach_item (reach_pair ihk hcolon ihe) hcomma ihs

theorem test_reaches {n : Node} (h : Derives Readable (.expr .test n) ts) :
    Reach (Covered (.rule .test)) ts := derives_reaches h

/-! ### Statements -/

/-- The statements of one line. -/
abbrev simpleStatements : Expansion :=
  .any (.rule .exprStmt) [.rule .assignStmt, .rule .augAssignStmt, .rule .returnStmt,
    .rule .breakStmt, .rule .continueStmt, .rule .passStmt, .rule .delStmt]

/-- The clauses behind the first branch of a conditional. -/
abbrev clauses : Expansion := .both (.many (.rule .elifClause)) (.optional (.rule .elseClause))

theorem covered_line {line : Token} (h : Covered simpleStatements ts)
    (hline : line.kind = .newline) :
    Covered (.rule .stmt) (ts ++ [line]) :=
  .rule 0 rfl (.rule 0 rfl (h.closed ((terminal_kind (by simp)).mpr hline)))

theorem reach_line {line : Token} (h : Reach (Covered simpleStatements) ts)
    (hline : line.kind = .newline) : Reach (Covered (.rule .stmt)) (ts ++ [line]) :=
  h.before [line] fun h => covered_line h hline

theorem reach_sides {c : Terminal} {mark : Token} {m n : Node}
    (h : Derives Readable (.expr .test m) us) (hmark : mark.terminal = c)
    (h' : Derives Readable (.expr .test n) vs) :
    Reach (Covered (.all [.rule .test, .token c, .rule .test])) (us ++ mark :: vs) :=
  (test_reaches h).join ((test_reaches h').behind [mark] fun h => h.headed hmark)
    fun h h' => h.both h'

theorem covered_word {word line : Token} {lexeme : String} (hword : word.is .keyword lexeme = true)
    (hline : line.kind = .newline)
    (h : ∀ {ts}, Covered (.keyword lexeme) ts → Covered simpleStatements ts) :
    Reach (Covered (.rule .stmt)) [word, line] :=
  .inl (covered_line (h (.token (terminal_keyword.mpr hword))) hline)

/-- A line that any block can go on with. -/
theorem exists_line : ∃ ts, Covered (.rule .stmt) ts := by
  let word : Token := ⟨.keyword, "pass", .start⟩
  let line : Token := ⟨.newline, "", .start⟩
  have hword : Covered (.rule .passStmt) [word] := .rule 0 rfl (.token rfl)
  exact ⟨[word] ++ [line], covered_line
    (.right (.right (.right (.right (.right (.right (.left hword))))))) rfl⟩

theorem covered_suite {colon line indent dedent : Token} (hcolon : colon.is .delimiter ":" = true)
    (hline : line.kind = .newline) (hindent : indent.kind = .indent)
    (hdedent : dedent.kind = .dedent)
    (h : Covered (.oneOrMore (.rule .stmt)) ts) :
    Covered (.rule .suite) (colon :: line :: indent :: ts ++ [dedent]) := by
  have hclosed := h.closed (c := .dedent) ((terminal_kind (by simp)).mpr hdedent)
  exact .rule 0 rfl (((hclosed.headed ((terminal_kind (by simp)).mpr hindent)).headed
    ((terminal_kind (by simp)).mpr hline)).headed (terminal_delimiter.mpr hcolon))

theorem one_or_more (h : Covered (.many e) us) (h' : Covered e vs) :
    Covered (.oneOrMore e) (us ++ vs) := by
  obtain ⟨xs, hxs⟩ := h
  cases hxs with
  | done =>
    have hone := h'.both (Covered.done (e := e))
    rwa [List.append_nil] at hone
  | more hfirst hmore =>
    rw [List.append_assoc]
    have hlast := h'.more .done
    rw [List.append_nil] at hlast
    exact .both ⟨_, hfirst⟩ (.append ⟨_, hmore⟩ hlast)

/-- Statements in front of a line end that no line stands before, or statements only. -/
def StatementsReach (ts : List Token) : Prop :=
  Reach (Covered (.many (.rule .stmt))) ts ∨ ∃ front line back, ts = front ++ line :: back ∧
    Covered (.many (.rule .stmt)) front ∧ line.kind = .newline

theorem reached_next (h : Reach (Covered (.rule .stmt)) us) (h' : StatementsReach vs) :
    StatementsReach (us ++ vs) := by
  rcases h' with h' | ⟨front, line, back, rfl, hfront, hline⟩
  · exact .inl (h.join h' fun h h' => h.more h')
  · rcases h with h | ⟨front', mark, back', more, rfl, hmore, hflawed, hmark⟩
    · exact .inr ⟨us ++ front, line, back, by simp, h.more hfront, hline⟩
    · refine .inl (.inr ⟨front', mark, back' ++ (front ++ line :: back), more, by simp, ?_, hflawed,
        hmark⟩)
      have hone := hmore.more .done
      rwa [List.append_nil] at hone

/-- The kinds of the tokens in front of the first statement of a block. -/
theorem opening_laidOut {colon line indent : Token} {n : Nat}
    (hcolon : colon.is .delimiter ":" = true)
    (hline : line.kind = .newline) (hindent : indent.kind = .indent)
    (h : LaidOut n (kinds (colon :: line :: indent :: ts))) : LaidOut n (.indent :: kinds ts) := by
  have hk : colon.kind.OfLine := by
    rw [(is_iff.mp hcolon).1]
    trivial
  have hkinds : kinds (colon :: line :: indent :: ts) =
      colon.kind :: .newline :: .indent :: kinds ts := by
    simp [kinds, hline, hindent]
  rw [hkinds, laidOut_ofLine hk] at h
  exact (laidOut_newline.mp h).2

theorem statements_blocksClosed (h : Covered (.many (.rule .stmt)) ts) {n : Nat}
    {ks : List TokenKind} :
    ¬ LaidOut n (.indent :: kinds ts ++ .newline :: ks) := by
  obtain ⟨xs, hxs⟩ := h
  obtain ⟨parts, hparts, rfl, -⟩ := hxs.fits (P := fun name ts _ => Neat name ts)
    (fun ha _ h => neat_step h ha) (List.infix_refl ts)
  refine not_laidOut_blank fun p hp => ?_
  obtain ⟨x, hx, -⟩ := hparts p hp
  exact neat_stmt hx

theorem reach_block {colon line indent dedent : Token} (hcolon : colon.is .delimiter ":" = true)
    (hline : line.kind = .newline) (hindent : indent.kind = .indent)
    (hdedent : dedent.kind = .dedent)
    (h : StatementsReach ts) :
    Reach (Covered (.rule .suite)) (colon :: line :: indent :: ts ++ [dedent]) := by
  obtain ⟨ws, hws⟩ := exists_line
  have hsuite {us : List Token} (hus : Covered (.many (.rule .stmt)) us) :
      Covered (.rule .suite) (colon :: line :: indent :: (us ++ ws) ++ [dedent]) :=
    covered_suite hcolon hline hindent hdedent (one_or_more hus hws)
  rcases h with (h | ⟨front, mark, back, more, rfl, hmore, hflawed, hmark⟩) |
    ⟨front, blank, back, rfl, hfront, hblank⟩
  · by_cases hnil : ts = []
    · subst hnil
      refine .inr ⟨[colon, line, indent], dedent, [], ws ++ [dedent], rfl, by simpa using hsuite h,
        .inr fun n hlaid => ?_, .inr (by simp [hdedent, TokenKind.OfLine])⟩
      have hopened : LaidOut n (.indent :: kinds [dedent]) :=
        opening_laidOut hcolon hline hindent hlaid
      exact hopened.2.1 rfl (by simp [kinds, hdedent])
    · refine .inl (covered_suite hcolon hline hindent hdedent ?_)
      obtain ⟨xs, hxs⟩ := h
      cases hxs with
      | done => exact absurd rfl hnil
      | more hfirst hmore => exact .both ⟨_, hfirst⟩ ⟨_, hmore⟩
  · refine .inr ⟨colon :: line :: indent :: front, mark, back ++ [dedent], more ++ (ws ++ [dedent]),
      by simp, by simpa using hsuite hmore, hflawed.behind [colon, line, indent], hmark⟩
  · refine .inr ⟨colon :: line :: indent :: front, blank, back ++ [dedent], ws ++ [dedent], by simp,
      by simpa using hsuite hfront, .inr fun n hlaid => ?_,
      .inr (by simp [hblank, TokenKind.OfLine])⟩
    have hopened : LaidOut n (.indent :: kinds (front ++ [blank])) :=
      opening_laidOut hcolon hline hindent hlaid
    have hlast : kinds [blank] = [.newline] := by rw [kinds, List.map_singleton, hblank]
    rw [kinds_append, hlast] at hopened
    exact statements_blocksClosed hfront hopened

def ClauseReach : Clause → List Token → Prop
  | .statement _, ts => Reach (Covered (.rule .stmt)) ts
  | .branches _ _, ts => Reach (Covered clauses) ts
  | .block _, ts => Reach (Covered (.rule .suite)) ts
  | .statements _, ts =>
    Reach (Covered (.many (.either (.token .newline) (.rule .stmt)))) ts ∧ StatementsReach ts

theorem reach_function {names : List String} {word title opening closing : Token}
    (hword : word.is .keyword "def" = true) (htitle : title.kind = .identifier)
    (hopening : opening.is .delimiter "(" = true) (hnames : Names us names)
    (hclosing : closing.is .delimiter ")" = true) (h : Reach (Covered (.rule .suite)) vs) :
    Reach (Covered (.rule .stmt)) (word :: title :: opening :: us ++ closing :: vs) := by
  have hother : ∀ u ∈ [title, opening], u.is .delimiter ")" = false := by
    obtain ⟨-, hl⟩ := is_iff.mp hopening
    simp [Token.is, htitle, hl]
  have hhead := names_reach hnames (by simp) hword hclosing hother
  have hsplit : word :: title :: opening :: us ++ closing :: vs =
      word :: ([title, opening] ++ us ++ [closing]) ++ vs := by simp
  rw [hsplit]
  refine hhead.join h fun hhead h => ?_
  obtain ⟨ws, hws, rfl⟩ := hhead
  have hlist := (hws.both (h.headed (terminal_delimiter.mpr hclosing))).headed
    (terminal_delimiter.mpr hopening)
  have hall := (hlist.headed ((terminal_kind (c := .name) (by simp)).mpr htitle)).headed
    (terminal_keyword.mpr hword)
  have hrule : Covered (.rule .stmt) _ := .rule 1 rfl (.rule 3 rfl (.rule 0 rfl hall))
  simpa using hrule

theorem reach_clause {opens : String} {word : Token} {n : Node}
    (hword : word.is .keyword opens = true)
    (hd : Derives Readable (.expr .test n) us) (h : Reach (Covered e) vs) :
    Reach (Covered (.both (.keyword opens) (.both (.rule .test) e))) (word :: (us ++ vs)) :=
  ((test_reaches hd).join h fun hd h => hd.both h).behind [word] fun h =>
    h.headed (terminal_keyword.mpr hword)

theorem reach_assignment {mark line : Token}
    (h : Reach (Covered simpleStatements) (us ++ mark :: vs))
    (hline : line.kind = .newline) :
    Reach (Covered (.rule .stmt)) (us ++ mark :: vs ++ [line]) := reach_line h hline

theorem covered_clause (h : Covered (.rule .elifClause) us) (h' : Covered clauses vs) :
    Covered clauses (us ++ vs) := by
  obtain ⟨xs, hxs⟩ := h'
  cases hxs with
  | both hmore hlast =>
    rw [← List.append_assoc]
    exact .both (h.more ⟨_, hmore⟩) ⟨_, hlast⟩

theorem builds_reach {c : Clause} (h : Builds c ts) : ClauseReach c ts := by
  induction h with
  | exprStmt hd hline =>
    exact reach_line ((test_reaches hd).imp fun h => .left (.rule 0 rfl h)) hline
  | assign hd _ hmark hv hline =>
    obtain ⟨hk, hl⟩ := is_iff.mp hmark
    have hsides := reach_sides hd (terminal_spelled (c := .operator "=") (by simp) hk hl) hv
    exact reach_assignment (hsides.imp fun h => .right (.left (.rule 0 rfl h))) hline
  | augAssign hd _ hk haug hv hline =>
    have hsides := reach_sides hd (terminal_augmented.mpr ⟨hk, (augmented_text haug).1⟩) hv
    exact reach_assignment (hsides.imp fun h => .right (.right (.left (.rule 0 rfl h)))) hline
  | returns hn hline =>
    exact .inl (covered_line (.right (.right (.right (.left (.rule 0 rfl
      ((Covered.none (e := .rule .test)).headed (terminal_keyword.mpr hn))))))) hline)
  | returnsValue hn hd hline =>
    refine reach_line (((test_reaches hd).behind [_] fun h => ?_)) hline
    exact .right (.right (.right (.left (.rule 0 rfl
      ((Covered.left h).headed (terminal_keyword.mpr hn))))))
  | breaks hn hline =>
    exact covered_word hn hline fun h => .right (.right (.right (.right (.left (.rule 0 rfl h)))))
  | continues hn hline =>
    exact covered_word hn hline fun h =>
      .right (.right (.right (.right (.right (.left (.rule 0 rfl h))))))
  | passes hn hline =>
    exact covered_word hn hline fun h =>
      .right (.right (.right (.right (.right (.right (.left (.rule 0 rfl h)))))))
  | delete hn hd hline =>
    refine reach_line (((test_reaches hd).behind [_] fun h => ?_)) hline
    exact .right (.right (.right (.right (.right (.right (.right (.rule 0 rfl
      (h.headed (terminal_keyword.mpr hn)))))))))
  | conditional hn hd _ _ ihv ihw =>
    rw [List.append_assoc, List.cons_append]
    exact (reach_clause hn hd (ihv.join ihw fun hv hw => hv.both hw)).imp fun h =>
      .rule 1 rfl (.rule 0 rfl (.rule 0 rfl h))
  | whileLoop hn hd _ ihv =>
    exact (reach_clause hn hd ihv).imp fun h => .rule 1 rfl (.rule 1 rfl (.rule 0 rfl h))
  | forLoop hn hname hwithin hd _ ihv =>
    have hitems := reach_clause hwithin hd ihv
    have hlist := (hitems.behind [_] fun h =>
      h.headed ((terminal_kind (c := .name) (by simp)).mpr hname)).behind [_] fun h =>
        h.headed (terminal_keyword.mpr hn)
    exact hlist.imp fun h => .rule 1 rfl (.rule 2 rfl (.rule 0 rfl h))
  | function hn hname ho hnames _ hc _ ihv => exact reach_function hn hname ho hnames hc ihv
  | noBranch => exact .inl (Covered.done.both .none)
  | otherwise hn _ ihu =>
    exact ihu.behind [_] fun h => Covered.done.both
      (.left (.rule 0 rfl (h.headed (terminal_keyword.mpr hn))))
  | branch hn hd _ _ ihv ihw =>
    exact ((reach_clause hn hd ihv).imp fun h => .rule 0 rfl h).join ihw covered_clause
  | block hcolon hline hindent _ hdedent ihu => exact reach_block hcolon hline hindent hdedent ihu.2
  | done => exact ⟨.inl .done, .inl (.inl .done)⟩
  | @blank line us ss hline _ ihu =>
    refine ⟨ihu.1.behind [line] fun h => ?_, .inr ⟨[], line, us, rfl, .done, hline⟩⟩
    exact (Covered.token ((terminal_kind (by simp)).mpr hline)).left.more h
  | next _ _ ihs ihss =>
    exact ⟨ihs.join ihss.1 fun h h' => h.right.more h', reached_next ihs ihss.2⟩

end Offside.Reference
