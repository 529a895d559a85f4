import Offside.Proofs.Reference.Expression

/-!
What is built depends on the words only: on the kinds of the tokens and on their texts, but for
those of line ends. An end of a line behind the last statement adds nothing, wherever the blocks are
closed.
-/

namespace Offside

/-- A word, whatever the text of a line end. -/
def Word.plain (w : Word) : Word := if w.kind = .newline then ⟨.newline, ""⟩ else w

def Token.plain (t : Token) : Word := t.word.plain

theorem Word.plain_kind (w : Word) : w.plain.kind = w.kind := by
  unfold plain
  split
  · next h => exact h.symm
  · rfl

theorem Token.plain_kind (t : Token) : t.plain.kind = t.kind := t.word.plain_kind

theorem Token.plain_eq {t : Token} (h : t.kind ≠ .newline) : t.plain = t.word := if_neg h

namespace Reference

open Grammar
open Offside.Parser (Readable is_iff)

/-! ### Tokens of the same words -/

def ReadAlike (ts us : List Token) : Prop := us.map Token.plain = ts.map Token.plain

variable {ts us vs ws : List Token} {t u : Token} {k : TokenKind} {text : String} {n : Node}

theorem plain_same (h : u.plain = t.plain) : u.kind = t.kind := by
  rw [← Token.plain_kind, h, Token.plain_kind]

theorem plain_lexeme (h : u.plain = t.plain) (hk : t.kind ≠ .newline) : u.lexeme = t.lexeme := by
  have hword := h
  rw [Token.plain_eq hk, Token.plain_eq (plain_same h ▸ hk)] at hword
  exact congrArg Word.lexeme hword

theorem plain_is (h : u.plain = t.plain) (hk : k ≠ .newline) (ht : t.is k text = true) :
    u.is k text = true := by
  obtain ⟨rfl, rfl⟩ := is_iff.mp ht
  exact is_iff.mpr ⟨plain_same h, plain_lexeme h hk⟩

/-- The class of a token is that of its word. -/
theorem plain_terminal (h : u.plain = t.plain) : u.terminal = t.terminal := by
  have hk := plain_same h
  unfold Token.terminal
  by_cases hline : t.kind = .newline
  · rw [hk, hline]
  · rw [hk, plain_lexeme h hline]

theorem ReadAlike.terminals (h : ReadAlike ts us) :
    us.map Token.terminal = ts.map Token.terminal := by
  induction ts generalizing us with
  | nil =>
    obtain rfl := List.map_eq_nil_iff.mp h
    rfl
  | cons t ts ih =>
    obtain ⟨u, us, rfl, ht, hts⟩ := List.map_eq_cons_iff.mp h
    rw [List.map_cons, List.map_cons, plain_terminal ht, ih hts]

theorem ReadAlike.split (h : ReadAlike (ts ++ vs) us) :
    ∃ us₁ us₂, us = us₁ ++ us₂ ∧ ReadAlike ts us₁ ∧ ReadAlike vs us₂ := by
  rw [ReadAlike, List.map_append] at h
  exact List.map_eq_append_iff.mp h

theorem ReadAlike.head (h : ReadAlike (t :: ts) us) :
    ∃ u us₁, us = u :: us₁ ∧ u.plain = t.plain ∧ ReadAlike ts us₁ := List.map_eq_cons_iff.mp h

theorem ReadAlike.one (h : ReadAlike [t] us) : ∃ u, us = [u] ∧ u.plain = t.plain := by
  obtain ⟨u, us₁, rfl, hu, hnil⟩ := h.head
  obtain rfl := List.map_eq_nil_iff.mp hnil
  exact ⟨u, rfl, hu⟩

theorem ReadAlike.none (h : ReadAlike [] us) : us = [] := List.map_eq_nil_iff.mp h

/-! ### Derivations -/

theorem names_alike {names : List String} (h : Names ts names) (hus : ReadAlike ts us) :
    Names us names := by
  induction h generalizing us with
  | nil =>
    obtain rfl := hus.none
    exact .nil
  | last ht =>
    obtain ⟨u, rfl, hu⟩ := hus.one
    rw [← plain_lexeme hu (by simp [ht])]
    exact .last ((plain_same hu).trans ht)
  | cons ht hcomma _ ih =>
    obtain ⟨u, _, rfl, hu, hus⟩ := hus.head
    obtain ⟨comma, us, rfl, hc, hus⟩ := hus.head
    rw [← plain_lexeme hu (by simp [ht])]
    exact .cons ((plain_same hu).trans ht) (plain_is hc (by decide) hcomma) (ih hus)

theorem operator_alike {s s' : Symbol} {op : String} (h : Operator s ts op s')
    (hus : ReadAlike ts us) :
    Operator s us op s' := by
  cases h with
  | or ht =>
    obtain ⟨u, rfl, hu⟩ := hus.one
    exact .or (plain_is hu (by decide) ht)
  | and ht =>
    obtain ⟨u, rfl, hu⟩ := hus.one
    exact .and (plain_is hu (by decide) ht)
  | within ht =>
    obtain ⟨u, rfl, hu⟩ := hus.one
    exact .within (plain_is hu (by decide) ht)
  | without ht ht' =>
    obtain ⟨u, _, rfl, hu, hus⟩ := hus.head
    obtain ⟨u', rfl, hu'⟩ := hus.one
    exact .without (plain_is hu (by decide) ht) (plain_is hu' (by decide) ht')
  | compare hk hl =>
    obtain ⟨u, rfl, hu⟩ := hus.one
    rw [← plain_lexeme hu (by simp [hk])] at hl ⊢
    exact .compare ((plain_same hu).trans hk) hl
  | sum hk hl =>
    obtain ⟨u, rfl, hu⟩ := hus.one
    rw [← plain_lexeme hu (by simp [hk])] at hl ⊢
    exact .sum ((plain_same hu).trans hk) hl
  | product hk hl =>
    obtain ⟨u, rfl, hu⟩ := hus.one
    rw [← plain_lexeme hu (by simp [hk])] at hl ⊢
    exact .product ((plain_same hu).trans hk) hl

theorem readable_alike (h : Readable t n) (hu : u.plain = t.plain) : Readable u n := by
  obtain ⟨e, rfl, he⟩ := h
  have hk := plain_same hu
  have hline : t.kind ≠ .newline := by
    intro hline
    simp [Parser.atom?, hline] at he
  have hl := plain_lexeme hu hline
  unfold Parser.atom? at he
  rw [Readable, Parser.atom?, hk, hl]
  split at he
  · split at he
    · cases he
      simp [Node.bare, *]
    · cases he
  · split at he
    · cases he
      simp [Node.bare, *]
    · cases he
  · cases he
    simp [Node.bare, *]
  · cases he
    simp [Node.bare, *]
  · split_ifs at he <;> cases he <;> simp [Node.bare, *]
  · cases he

/-- Tokens between two brackets. -/
theorem ReadAlike.enclosed {opening closing : Token}
    (h : ReadAlike (opening :: ts ++ [closing]) us) :
    ∃ o vs c, us = o :: vs ++ [c] ∧ o.plain = opening.plain ∧ ReadAlike ts vs ∧
      c.plain = closing.plain := by
  obtain ⟨front, back, rfl, hfront, hback⟩ := h.split
  obtain ⟨o, vs, rfl, ho, hvs⟩ := hfront.head
  obtain ⟨c, rfl, hc⟩ := hback.one
  exact ⟨o, vs, c, rfl, ho, hvs, hc⟩

/-- Tokens apart from one between them. -/
theorem ReadAlike.parted {mark : Token} (h : ReadAlike (ts ++ mark :: vs) us) :
    ∃ front m back, us = front ++ m :: back ∧ ReadAlike ts front ∧ m.plain = mark.plain ∧
      ReadAlike vs back := by
  obtain ⟨front, rest, rfl, hfront, hrest⟩ := h.split
  obtain ⟨m, back, rfl, hm, hback⟩ := hrest.head
  exact ⟨front, m, back, rfl, hfront, hm, hback⟩

theorem derives_alike {p : Phrase} (h : Derives Readable p ts) (hus : ReadAlike ts us) :
    Derives Readable p us := by
  induction h generalizing us with
  | unit hs _ ih => exact .unit hs (ih hus)
  | lambda ht hnames hnodup hcolon _ ih =>
    obtain ⟨front, c, v, rfl, hfront, hc, hv⟩ := hus.parted
    obtain ⟨word, u, rfl, hword, hu⟩ := hfront.head
    exact .lambda (plain_is hword (by decide) ht) (names_alike hnames hu) hnodup
      (plain_is hc (by decide) hcolon) (ih hv)
  | binary _ hop _ iha ihb =>
    obtain ⟨front, v, rfl, hfront, hv⟩ := hus.split
    obtain ⟨u, w, rfl, hu, hw⟩ := hfront.split
    exact .binary (iha hu) (operator_alike hop hw) (ihb hv)
  | negation ht _ ih =>
    obtain ⟨word, u, rfl, hword, hu⟩ := hus.head
    exact .negation (plain_is hword (by decide) ht) (ih hu)
  | minus ht _ ih =>
    obtain ⟨word, u, rfl, hword, hu⟩ := hus.head
    exact .minus (plain_is hword (by decide) ht) (ih hu)
  | call _ ho _ hc ihf ihs =>
    rw [List.append_assoc] at hus
    obtain ⟨u, rest, rfl, hu, hrest⟩ := hus.split
    obtain ⟨o, v, c, rfl, hopening, hv, hclosing⟩ := hrest.enclosed
    rw [← List.append_assoc]
    exact .call (ihf hu) (plain_is hopening (by decide) ho) (ihs hv)
      (plain_is hclosing (by decide) hc)
  | index _ ho _ hc iha ihi =>
    rw [List.append_assoc] at hus
    obtain ⟨u, rest, rfl, hu, hrest⟩ := hus.split
    obtain ⟨o, v, c, rfl, hopening, hv, hclosing⟩ := hrest.enclosed
    rw [← List.append_assoc]
    exact .index (iha hu) (plain_is hopening (by decide) ho) (ihi hv)
      (plain_is hclosing (by decide) hc)
  | member _ hdot hname ih =>
    obtain ⟨u, rest, rfl, hu, hrest⟩ := hus.split
    obtain ⟨d, _, rfl, hd, hrest⟩ := hrest.head
    obtain ⟨name, rfl, hn⟩ := hrest.one
    rw [← plain_lexeme hn (by simp [hname])]
    exact .member (ih hu) (plain_is hd (by decide) hdot) ((plain_same hn).trans hname)
  | leaf hl =>
    obtain ⟨u, rfl, hu⟩ := hus.one
    exact .leaf (readable_alike hl hu)
  | parens ho _ hc ih =>
    obtain ⟨o, v, c, rfl, hopening, hv, hclosing⟩ := hus.enclosed
    exact .parens (plain_is hopening (by decide) ho) (ih hv) (plain_is hclosing (by decide) hc)
  | list ho _ hc ih =>
    obtain ⟨o, v, c, rfl, hopening, hv, hclosing⟩ := hus.enclosed
    exact .list (plain_is hopening (by decide) ho) (ih hv) (plain_is hclosing (by decide) hc)
  | map ho _ hc ih =>
    obtain ⟨o, v, c, rfl, hopening, hv, hclosing⟩ := hus.enclosed
    exact .map (plain_is hopening (by decide) ho) (ih hv) (plain_is hclosing (by decide) hc)
  | noItems =>
    obtain rfl := hus.none
    exact .noItems
  | lastItem _ ih => exact .lastItem (ih hus)
  | item _ hcomma _ ih ihs =>
    obtain ⟨u, c, v, rfl, hu, hc, hv⟩ := hus.parted
    exact .item (ih hu) (plain_is hc (by decide) hcomma) (ihs hv)
  | noPairs =>
    obtain rfl := hus.none
    exact .noPairs
  | lastPair _ hcolon _ ihk ihe =>
    obtain ⟨u, c, v, rfl, hu, hc, hv⟩ := hus.parted
    exact .lastPair (ihk hu) (plain_is hc (by decide) hcolon) (ihe hv)
  | pair _ hcolon _ hcomma _ ihk ihe ihs =>
    obtain ⟨front, c', w, rfl, hfront, hc', hw⟩ := hus.parted
    obtain ⟨u, c, v, rfl, hu, hc, hv⟩ := hfront.parted
    exact .pair (ihk hu) (plain_is hc (by decide) hcolon) (ihe hv) (plain_is hc' (by decide) hcomma)
      (ihs hw)

/-! ### Statements -/

/-- A keyword on a line of its own. -/
theorem ReadAlike.worded {word line : Token} (h : ReadAlike [word, line] us)
    (hword : word.is .keyword text = true) (hline : line.kind = .newline) :
    ∃ word' line', us = [word', line'] ∧ word'.is .keyword text = true ∧
      line'.kind = .newline := by
  obtain ⟨word', _, rfl, hw, hrest⟩ := h.head
  obtain ⟨line', rfl, hl⟩ := hrest.one
  exact ⟨word', line', rfl, plain_is hw (by decide) hword, (plain_same hl).trans hline⟩

/-- A keyword and an expression, with something behind them. -/
theorem ReadAlike.headed {word : Token} {p : Phrase} (h : ReadAlike (word :: ts ++ vs) us)
    (hword : word.is .keyword text = true) (hd : Derives Readable p ts) :
    ∃ word' u v, us = word' :: u ++ v ∧ word'.is .keyword text = true ∧ Derives Readable p u ∧
      ReadAlike vs v := by
  obtain ⟨front, v, rfl, hfront, hv⟩ := h.split
  obtain ⟨word', u, rfl, hw, hu⟩ := hfront.head
  exact ⟨word', u, v, rfl, plain_is hw (by decide) hword, derives_alike hd hu, hv⟩

theorem builds_alike {c : Clause} (h : Builds c ts) (hus : ReadAlike ts us) : Builds c us := by
  induction h generalizing us with
  | exprStmt hd hline =>
    obtain ⟨u, rest, rfl, hu, hrest⟩ := hus.split
    obtain ⟨line, rfl, hl⟩ := hrest.one
    exact .exprStmt (derives_alike hd hu) ((plain_same hl).trans hline)
  | assign hd ha hmark hv hline =>
    obtain ⟨front, rest, rfl, hfront, hrest⟩ := hus.split
    obtain ⟨line, rfl, hl⟩ := hrest.one
    obtain ⟨u, m, v, rfl, hu, hm, hv'⟩ := hfront.parted
    exact .assign (derives_alike hd hu) ha (plain_is hm (by decide) hmark) (derives_alike hv hv')
      ((plain_same hl).trans hline)
  | augAssign hd ha hk haug hv hline =>
    obtain ⟨front, rest, rfl, hfront, hrest⟩ := hus.split
    obtain ⟨line, rfl, hl⟩ := hrest.one
    obtain ⟨u, m, v, rfl, hu, hm, hv'⟩ := hfront.parted
    rw [← plain_lexeme hm (by simp [hk])] at haug
    exact .augAssign (derives_alike hd hu) ha ((plain_same hm).trans hk) haug (derives_alike hv hv')
      ((plain_same hl).trans hline)
  | returns hn hline =>
    obtain ⟨word, line, rfl, hn', hline'⟩ := hus.worded hn hline
    exact .returns hn' hline'
  | breaks hn hline =>
    obtain ⟨word, line, rfl, hn', hline'⟩ := hus.worded hn hline
    exact .breaks hn' hline'
  | continues hn hline =>
    obtain ⟨word, line, rfl, hn', hline'⟩ := hus.worded hn hline
    exact .continues hn' hline'
  | passes hn hline =>
    obtain ⟨word, line, rfl, hn', hline'⟩ := hus.worded hn hline
    exact .passes hn' hline'
  | returnsValue hn hd hline =>
    obtain ⟨word, u, _, rfl, hn', hd', hrest⟩ := hus.headed hn hd
    obtain ⟨line, rfl, hl⟩ := hrest.one
    exact .returnsValue hn' hd' ((plain_same hl).trans hline)
  | delete hn hd hline =>
    obtain ⟨word, u, _, rfl, hn', hd', hrest⟩ := hus.headed hn hd
    obtain ⟨line, rfl, hl⟩ := hrest.one
    exact .delete hn' hd' ((plain_same hl).trans hline)
  | conditional hn hd _ _ ihv ihw =>
    obtain ⟨front, w, rfl, hfront, hw⟩ := hus.split
    obtain ⟨word, u, v, rfl, hn', hd', hv⟩ := hfront.headed hn hd
    exact .conditional hn' hd' (ihv hv) (ihw hw)
  | whileLoop hn hd _ ihv =>
    obtain ⟨word, u, v, rfl, hn', hd', hv⟩ := hus.headed hn hd
    exact .whileLoop hn' hd' (ihv hv)
  | forLoop hn hname hwithin hd _ ihv =>
    obtain ⟨front, v, rfl, hfront, hv⟩ := hus.split
    obtain ⟨word, _, rfl, hword, hfront⟩ := hfront.head
    obtain ⟨name, _, rfl, hnamed, hfront⟩ := hfront.head
    obtain ⟨within, u, rfl, hin, hu⟩ := hfront.head
    rw [← plain_lexeme hnamed (by simp [hname])]
    exact .forLoop (plain_is hword (by decide) hn) ((plain_same hnamed).trans hname)
      (plain_is hin (by decide) hwithin) (derives_alike hd hu) (ihv hv)
  | function hn hname ho hnames hnodup hc _ ihv =>
    obtain ⟨front, closing, v, rfl, hfront, hclosing, hv⟩ := hus.parted
    obtain ⟨word, _, rfl, hword, hfront⟩ := hfront.head
    obtain ⟨name, _, rfl, hnamed, hfront⟩ := hfront.head
    obtain ⟨opening, u, rfl, hopening, hu⟩ := hfront.head
    rw [← plain_lexeme hnamed (by simp [hname])]
    exact .function (plain_is hword (by decide) hn) ((plain_same hnamed).trans hname)
      (plain_is hopening (by decide) ho) (names_alike hnames hu) hnodup
      (plain_is hclosing (by decide) hc) (ihv hv)
  | noBranch =>
    obtain rfl := hus.none
    exact .noBranch
  | otherwise hn _ ihu =>
    obtain ⟨word, u, rfl, hword, hu⟩ := hus.head
    exact .otherwise (plain_is hword (by decide) hn) (ihu hu)
  | branch hn hd _ _ ihv ihw =>
    obtain ⟨front, w, rfl, hfront, hw⟩ := hus.split
    obtain ⟨word, u, v, rfl, hn', hd', hv⟩ := hfront.headed hn hd
    exact .branch hn' hd' (ihv hv) (ihw hw)
  | block hcolon hline hindent _ hdedent ihu =>
    obtain ⟨front, rest, rfl, hfront, hrest⟩ := hus.split
    obtain ⟨dedent, rfl, hd⟩ := hrest.one
    obtain ⟨colon, _, rfl, hc, hfront⟩ := hfront.head
    obtain ⟨line, _, rfl, hl, hfront⟩ := hfront.head
    obtain ⟨indent, u, rfl, hi, hu⟩ := hfront.head
    exact .block (plain_is hc (by decide) hcolon) ((plain_same hl).trans hline)
      ((plain_same hi).trans hindent) (ihu hu) ((plain_same hd).trans hdedent)
  | done =>
    obtain rfl := hus.none
    exact .done
  | blank hline _ ihu =>
    obtain ⟨line, u, rfl, hl, hu⟩ := hus.head
    exact .blank ((plain_same hl).trans hline) (ihu hu)
  | next _ _ ihs ihss =>
    obtain ⟨u, v, rfl, hu, hv⟩ := hus.split
    exact .next (ihs hu) (ihss hv)

/-! ### An end of a line more -/

def Closing (ts : List Token) : Prop := ∀ t ∈ ts, t.kind = .dedent

/-- The first token is no DEDENT. -/
def Opening (ts : List Token) : Prop := ∃ t rest, ts = t :: rest ∧ t.kind ≠ .dedent

theorem opening_is (h : t.is k text = true) (hk : k ≠ .dedent) : Opening (t :: ts) :=
  ⟨t, ts, rfl, (is_iff.mp h).1 ▸ hk⟩

theorem opening_block {ss : List Node} (h : Builds (.block ss) ts) : Opening ts := by
  cases h with
  | block hcolon => exact opening_is hcolon (by decide)

theorem opening_branches {bs : List (Node × List Node)} {e : Option (List Node)}
    (h : Builds (.branches bs e) ts) : ts = [] ∨ Opening ts := by
  cases h with
  | noBranch => exact .inl rfl
  | otherwise hn | branch hn => exact .inr (opening_is hn (by decide))

theorem opening_statement {s : Node} (h : Builds (.statement s) ts) : Opening ts := by
  cases h with
  | exprStmt hd | assign hd | augAssign hd =>
    obtain ⟨t, rest, rfl, ht⟩ := Parser.derives_headed hd
    exact ⟨t, _, rfl, fun hk => ht.kind (by simp [hk])⟩
  | returns hn | returnsValue hn | breaks hn | continues hn | passes hn | delete hn
  | conditional hn | whileLoop hn | forLoop hn | function hn => exact opening_is hn (by decide)

theorem closing_statements {ss : List Node} (h : Builds (.statements ss) ts) (hts : Closing ts) :
    ts = [] := by
  cases h with
  | done => rfl
  | blank hline => exact nomatch (hts _ List.mem_cons_self).symm.trans hline
  | next hs =>
    obtain ⟨t, rest, rfl, ht⟩ := opening_statement hs
    exact absurd (hts t List.mem_cons_self) ht

/-- What closes blocks stands behind the last token that does not. -/
theorem closing_within {front closing : List Token} (h : us ++ vs = front ++ closing)
    (hvs : Opening vs) (hclosing : Closing closing) :
    ∃ front', front' ≠ [] ∧ front = us ++ front' ∧ vs = front' ++ closing := by
  obtain ⟨t, rest, rfl, ht⟩ := hvs
  rcases List.append_eq_append_iff.mp h with ⟨front', rfl, hrest⟩ | ⟨front', rfl, rfl⟩
  · cases front' with
    | nil =>
      obtain rfl : t :: rest = closing := hrest
      exact absurd (hclosing t List.mem_cons_self) ht
    | cons u front' => exact ⟨u :: front', List.cons_ne_nil u front', rfl, hrest⟩
  · exact absurd (hclosing t (by simp)) ht

/-- A list of tokens that ends in no DEDENT. -/
theorem closing_last {front closing : List Token} {last : Token}
    (h : ts ++ [last] = front ++ closing) (hk : last.kind ≠ .dedent) (hclosing : Closing closing) :
    closing = [] := by
  rcases List.eq_nil_or_concat' closing with rfl | ⟨closing, t, rfl⟩
  · rfl
  · rw [← List.append_assoc] at h
    obtain ⟨-, hlast⟩ := List.append_inj' h rfl
    obtain rfl := List.singleton_inj.mp hlast
    exact absurd (hclosing last (by simp)) hk

/-- An end of a line may stand in front of what closes blocks; at the end of a list of statements
also where none is closed. -/
def TakesLineEnd (line : Token) (c : Clause) (ts : List Token) : Prop :=
  ∀ ⦃front closing : List Token⦄, ts = front ++ closing → Closing closing →
    (closing = [] → ∃ ss, c = .statements ss) → Builds c (front ++ line :: closing)

variable {line : Token}

theorem takesLineEnd_line {c : Clause} {w : List Token} {last : Token}
    (hlast : last.kind = .newline)
    (hc : ∀ ss, c ≠ .statements ss) : TakesLineEnd line c (w ++ [last]) := by
  intro front closing heq hclosing hnil
  obtain ⟨ss, hss⟩ := hnil (closing_last heq (by simp [hlast]) hclosing)
  exact absurd hss (hc ss)

/-- The last part of a clause extends the clause. -/
theorem takesLineEnd_last {c c' : Clause} {w : List Token} (h : TakesLineEnd line c vs)
    (hvs : Opening vs)
    (hc : ∀ ss, c' ≠ .statements ss) (hbuild : ∀ {us}, Builds c us → Builds c' (w ++ us)) :
    TakesLineEnd line c' (w ++ vs) := by
  intro front closing heq hclosing hnil
  have hne : closing ≠ [] := by
    intro hclosed
    obtain ⟨ss, hss⟩ := hnil hclosed
    exact hc ss hss
  obtain ⟨front, -, rfl, rfl⟩ := closing_within heq hvs hclosing
  rw [List.append_assoc]
  exact hbuild (h rfl hclosing fun hclosed => absurd hclosed hne)

theorem takesLineEnd_branches {c : Clause} {bs : List (Node × List Node)} {e : Option (List Node)}
    {ss : List Node} (hv : Builds (.block ss) vs) (hvs : TakesLineEnd line (.block ss) vs)
    (hw : Builds (.branches bs e) ws) (hws : TakesLineEnd line (.branches bs e) ws)
    (hc : ∀ ss, c ≠ .statements ss)
    (hbuild : ∀ {vs ws}, Builds (.block ss) vs → Builds (.branches bs e) ws →
      Builds c (us ++ vs ++ ws)) : TakesLineEnd line c (us ++ vs ++ ws) := by
  rcases opening_branches hw with rfl | hopening
  · rw [List.append_nil]
    refine takesLineEnd_last hvs (opening_block hv) hc fun hblock => ?_
    have hall := hbuild hblock hw
    rwa [List.append_nil] at hall
  · exact takesLineEnd_last hws hopening hc fun hmore => hbuild hv hmore

theorem takesLineEnd_block {colon last indent dedent : Token} {ss : List Node}
    (hcolon : colon.is .delimiter ":" = true) (hlast : last.kind = .newline)
    (hindent : indent.kind = .indent) (hdedent : dedent.kind = .dedent)
    (h : TakesLineEnd line (.statements ss) us) :
    TakesLineEnd line (.block ss) (colon :: last :: indent :: us ++ [dedent]) := by
  intro front closing heq hclosing hnil
  obtain ⟨closing, d, rfl⟩ := (List.eq_nil_or_concat' closing).resolve_left fun hclosed => by
    obtain ⟨ss, hss⟩ := hnil hclosed
    cases hss
  rw [← List.append_assoc] at heq
  obtain ⟨hinner, hd⟩ := List.append_inj' heq rfl
  obtain rfl := List.singleton_inj.mp hd
  have hopening : Opening (indent :: us) := ⟨indent, us, rfl, by simp [hindent]⟩
  have hbefore : Closing closing := fun t ht => hclosing t (List.mem_append_left _ ht)
  have hsplit : [colon, last] ++ (indent :: us) = front ++ closing := hinner
  obtain ⟨front', hne, rfl, hfront⟩ := closing_within hsplit hopening hbefore
  obtain ⟨t, front'', rfl⟩ := List.exists_cons_of_ne_nil hne
  obtain ⟨rfl, rfl⟩ := List.cons.inj hfront
  have hall := Builds.block hcolon hlast hindent (h rfl hbefore fun _ => ⟨ss, rfl⟩) hdedent
  simpa using hall

theorem builds_takeLineEnd {c : Clause} (hline : line.kind = .newline) (h : Builds c ts) :
    TakesLineEnd line c ts := by
  induction h with
  | exprStmt _ hlast => exact takesLineEnd_line hlast (by simp)
  | assign _ _ _ _ hlast | augAssign _ _ _ _ _ hlast => exact takesLineEnd_line hlast (by simp)
  | returns _ hlast | breaks _ hlast | continues _ hlast | passes _ hlast =>
    exact takesLineEnd_line (w := [_]) hlast (by simp)
  | returnsValue _ _ hlast | delete _ _ hlast => exact takesLineEnd_line hlast (by simp)
  | conditional hn hd hv hw ihv ihw =>
    exact takesLineEnd_branches hv ihv hw ihw (by simp) fun hv hw => .conditional hn hd hv hw
  | whileLoop hn hd hv ihv =>
    exact takesLineEnd_last ihv (opening_block hv) (by simp) fun hv => .whileLoop hn hd hv
  | forLoop hn hname hwithin hd hv ihv =>
    exact takesLineEnd_last ihv (opening_block hv) (by simp) fun hv =>
      .forLoop hn hname hwithin hd hv
  | @function word name opening closing u v xs ss hn hname ho hnames hnodup hc hv ihv =>
    have hsplit : word :: name :: opening :: u ++ closing :: v =
        (word :: name :: opening :: u ++ [closing]) ++ v := by simp
    rw [hsplit]
    have hbuild {ws : List Token} (hws : Builds (.block ss) ws) :
        Builds (.statement (.functionDef .unknown name.lexeme (xs.map Json.string) ss))
          (word :: name :: opening :: u ++ [closing] ++ ws) := by
      have hall := Builds.function hn hname ho hnames hnodup hc hws
      simpa using hall
    exact takesLineEnd_last ihv (opening_block hv) (by simp) hbuild
  | noBranch =>
    intro front closing heq hclosing hnil
    obtain ⟨-, rfl⟩ := List.append_eq_nil_iff.mp heq.symm
    obtain ⟨ss, hss⟩ := hnil rfl
    cases hss
  | otherwise hn hu ihu =>
    exact takesLineEnd_last (w := [_]) ihu (opening_block hu) (by simp) fun hu => .otherwise hn hu
  | branch hn hd hv hw ihv ihw =>
    exact takesLineEnd_branches hv ihv hw ihw (by simp) fun hv hw => .branch hn hd hv hw
  | block hcolon hlast hindent _ hdedent ihu =>
    exact takesLineEnd_block hcolon hlast hindent hdedent ihu
  | done =>
    intro front closing heq _ _
    obtain ⟨rfl, rfl⟩ := List.append_eq_nil_iff.mp heq.symm
    exact .blank hline .done
  | @blank last u ss hlast _ ihu =>
    intro front closing heq hclosing _
    cases front with
    | nil =>
      obtain rfl : last :: u = closing := heq
      exact nomatch (hclosing last List.mem_cons_self).symm.trans hlast
    | cons t front =>
      obtain ⟨rfl, rfl⟩ := List.cons.inj heq
      exact .blank hlast (ihu rfl hclosing fun _ => ⟨ss, rfl⟩)
  | @next u v s ss hs hss ihs ihss =>
    intro front closing heq hclosing _
    rcases List.append_eq_append_iff.mp heq with ⟨front', rfl, rfl⟩ | ⟨closing', rfl, rfl⟩
    · rw [List.append_assoc]
      exact .next hs (ihss rfl hclosing fun _ => ⟨ss, rfl⟩)
    · obtain rfl := closing_statements hss fun t ht => hclosing t (List.mem_append_right _ ht)
      rw [List.append_nil] at hclosing ⊢
      by_cases hne : closing' = []
      · subst hne
        rw [List.append_nil] at hs
        exact .next hs (.blank hline hss)
      · have hlong := Builds.next (ihs rfl hclosing fun hnil => absurd hnil hne) hss
        rwa [List.append_nil] at hlong

/-! ### What is built is sensible -/

theorem Sensible.append (h : Sensible ts) (hus : Sensible us) : Sensible (ts ++ us) := by
  refine ⟨List.forall_mem_append.mpr ⟨h.legible, hus.legible⟩, fun front back t heq ht => ?_⟩
  rcases List.append_eq_append_iff.mp heq with ⟨front', rfl, rfl⟩ | ⟨rest, rfl, hrest⟩
  · exact hus.lambdas front' back t rfl ht
  · cases rest with
    | nil => exact hus.lambdas [] back t hrest.symm ht
    | cons u rest =>
      obtain ⟨rfl, rfl⟩ := List.cons.inj hrest
      obtain ⟨vs, xs, colon, ws, rfl, hnames, hnodup, hcolon⟩ := h.lambdas front rest t rfl ht
      exact ⟨vs, xs, colon, ws ++ us, by simp, hnames, hnodup, hcolon⟩

theorem sensible_nil : Sensible [] :=
  ⟨List.forall_mem_nil _, fun front back t heq => by simp at heq⟩

theorem sensible_token (h : ∀ f, Parser.atom? t ≠ some (.error f))
    (hword : t.is .keyword "lambda" = false) : Sensible [t] := by
  refine ⟨List.forall_mem_singleton.mpr h, fun front back u heq hu => ?_⟩
  have hmem : u ∈ [t] := by
    rw [heq]
    simp
  obtain rfl := List.mem_singleton.mp hmem
  exact absurd hu (by simp [hword])

/-- A token that is no number and no keyword. -/
theorem sensible_kind (h : t.kind ∉ [.integer, .float, .keyword]) : Sensible [t] := by
  simp only [List.mem_cons, List.not_mem_nil, or_false, not_or] at h
  refine sensible_token (fun f => ?_) (by simp [Token.is, h])
  unfold Parser.atom?
  split <;> simp_all

theorem sensible_word (h : t.is .keyword text = true) (hword : text ≠ "lambda") : Sensible [t] := by
  obtain ⟨hk, rfl⟩ := is_iff.mp h
  refine sensible_token (fun f => ?_) (by simp [Token.is, hword])
  unfold Parser.atom?
  rw [hk]
  split_ifs <;> simp

theorem sensible_mark (h : t.is .delimiter text = true) : Sensible [t] :=
  sensible_kind (by simp [(is_iff.mp h).1])

theorem sensible_names {names : List String} (h : Names ts names) : Sensible ts := by
  induction h with
  | nil => exact sensible_nil
  | last ht => exact sensible_kind (by simp [ht])
  | cons ht hcomma _ ih =>
    exact (sensible_kind (by simp [ht])).append ((sensible_mark hcomma).append ih)

theorem sensible_operator {s s' : Symbol} {op : String} (h : Operator s ts op s') :
    Sensible ts := by
  cases h with
  | or ht | and ht | within ht => exact sensible_word ht (by decide)
  | without ht hu => exact (sensible_word ht (by decide)).append (sensible_word hu (by decide))
  | compare hk | sum hk | product hk => exact sensible_kind (by simp [hk])

theorem sensible_leaf (h : Readable t n) : Sensible [t] := by
  obtain ⟨e, -, he⟩ := h
  refine sensible_token (fun f hf => ?_) ?_
  · rw [he] at hf
    cases hf
  · by_contra hword
    obtain ⟨hk, hl⟩ := is_iff.mp (by simpa using hword : t.is .keyword "lambda" = true)
    simp [Parser.atom?, hk, hl] at he

theorem sensible_lambda {names : List String} {word colon : Token}
    (hword : word.is .keyword "lambda" = true) (hnames : Names us names) (hnodup : names.Nodup)
    (hcolon : colon.is .delimiter ":" = true) (h : Sensible vs) :
    Sensible (word :: us ++ colon :: vs) := by
  have hrest := (sensible_names hnames).append ((sensible_mark hcolon).append h)
  obtain ⟨hk, hl⟩ := is_iff.mp hword
  refine ⟨List.forall_mem_cons.mpr ⟨fun f => ?_, hrest.legible⟩, fun front back t heq ht => ?_⟩
  · simp [Parser.atom?, hk, hl]
  · cases front with
    | nil =>
      obtain ⟨rfl, rfl⟩ := List.cons.inj heq
      exact ⟨us, names, colon, vs, rfl, hnames, hnodup, hcolon⟩
    | cons u front =>
      obtain ⟨rfl, hback⟩ := List.cons.inj heq
      exact hrest.lambdas front back t hback ht

theorem derives_sensible {p : Phrase} (h : Derives Readable p ts) : Sensible ts := by
  induction h with
  | unit _ _ ih => exact ih
  | lambda ht hnames hnodup hcolon _ ih => exact sensible_lambda ht hnames hnodup hcolon ih
  | binary _ hop _ iha ihb => exact (iha.append (sensible_operator hop)).append ihb
  | negation ht _ ih => exact (sensible_word ht (by decide)).append ih
  | minus ht _ ih => exact (sensible_kind (by simp [(is_iff.mp ht).1])).append ih
  | call _ ho _ hc iha ihb | index _ ho _ hc iha ihb =>
    exact (iha.append ((sensible_mark ho).append ihb)).append (sensible_mark hc)
  | member _ hdot hname ih =>
    exact ih.append ((sensible_mark hdot).append (sensible_kind (by simp [hname])))
  | leaf hl => exact sensible_leaf hl
  | parens ho _ hc ih | list ho _ hc ih | map ho _ hc ih =>
    exact ((sensible_mark ho).append ih).append (sensible_mark hc)
  | noItems | noPairs => exact sensible_nil
  | lastItem _ ih => exact ih
  | item _ hcomma _ ih ihs => exact ih.append ((sensible_mark hcomma).append ihs)
  | lastPair _ hcolon _ ihk ihe => exact ihk.append ((sensible_mark hcolon).append ihe)
  | pair _ hcolon _ hcomma _ ihk ihe ihs =>
    exact (ihk.append ((sensible_mark hcolon).append ihe)).append
      ((sensible_mark hcomma).append ihs)

/-- A token that is no word. -/
theorem sensible_layout (h : t.kind ∈ [.newline, .indent, .dedent]) : Sensible [t] := by
  refine sensible_kind ?_
  revert h
  cases t.kind <;> simp

theorem builds_sensible {c : Clause} (h : Builds c ts) : Sensible ts := by
  induction h with
  | exprStmt hd hline => exact (derives_sensible hd).append (sensible_layout (by simp [hline]))
  | assign hd _ hmark hv hline =>
    exact ((derives_sensible hd).append ((sensible_kind (by simp [(is_iff.mp hmark).1])).append
      (derives_sensible hv))).append (sensible_layout (by simp [hline]))
  | augAssign hd _ hk _ hv hline =>
    exact ((derives_sensible hd).append ((sensible_kind (by simp [hk])).append
      (derives_sensible hv))).append (sensible_layout (by simp [hline]))
  | returns hn hline | breaks hn hline | continues hn hline | passes hn hline =>
    exact (sensible_word hn (by decide)).append (sensible_layout (by simp [hline]))
  | returnsValue hn hd hline | delete hn hd hline =>
    exact ((sensible_word hn (by decide)).append (derives_sensible hd)).append
      (sensible_layout (by simp [hline]))
  | conditional hn hd _ _ ihv ihw | branch hn hd _ _ ihv ihw =>
    exact (((sensible_word hn (by decide)).append (derives_sensible hd)).append ihv).append ihw
  | whileLoop hn hd _ ihv =>
    exact ((sensible_word hn (by decide)).append (derives_sensible hd)).append ihv
  | forLoop hn hname hwithin hd _ ihv =>
    exact ((sensible_word hn (by decide)).append ((sensible_kind (by simp [hname])).append
      ((sensible_word hwithin (by decide)).append (derives_sensible hd)))).append ihv
  | function hn hname ho hnames _ hc _ ihv =>
    exact ((sensible_word hn (by decide)).append ((sensible_kind (by simp [hname])).append
      ((sensible_mark ho).append (sensible_names hnames)))).append ((sensible_mark hc).append ihv)
  | noBranch | done => exact sensible_nil
  | otherwise hn _ ihu => exact (sensible_word hn (by decide)).append ihu
  | block hcolon hline hindent _ hdedent ihu =>
    exact ((sensible_mark hcolon).append ((sensible_layout (by simp [hline])).append
      ((sensible_layout (by simp [hindent])).append ihu))).append
        (sensible_layout (by simp [hdedent]))
  | blank hline _ ihu => exact (sensible_layout (by simp [hline])).append ihu
  | next _ _ ihs ihss => exact ihs.append ihss

end Reference

end Offside
