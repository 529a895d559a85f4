import Offside.Proofs.Lexer.Move
import Offside.Proofs.Reference.Cover

/-!
What no text of the grammar has, although the parser reads over it: a comma behind the last
parameter, and inside a block an end of a line without a line. Either shows in the tokens up to some
place, so that no text begins with them.
-/

namespace Offside

namespace Parser

/-- Whether the list that a token closes ends in a comma. -/
def commaBefore (close : String) : List Token → Bool
  | t :: u :: rest =>
    !t.is .delimiter close &&
      (t.is .delimiter "," && u.is .delimiter close || commaBefore close (u :: rest))
  | _ => false

/-- Whether a list of parameters ends in a comma: one between a `lambda` and its colon, or between a
`def` and the parenthesis that closes the list. -/
def hasTrailingComma : List Token → Bool
  | [] => false
  | t :: rest =>
    t.is .keyword "lambda" && commaBefore ":" rest || t.is .keyword "def" && commaBefore ")" rest ||
      hasTrailingComma rest

end Parser

namespace Reference

open Offside.Parser (commaBefore hasTrailingComma is_iff)

/-- The blocks that are open behind a token. -/
def levelAfter (n : Nat) : TokenKind → Nat
  | .indent => n + 1
  | .dedent => n - 1
  | _ => n

/-- Inside a block no line end stands behind another token of the layout; and none is closed where
it opens. -/
def LaidOut : Nat → List TokenKind → Prop
  | _, [] => True
  | n, k :: ks =>
    (¬ k.OfLine → levelAfter n k ≠ 0 → ks.head? ≠ some .newline) ∧
      (k = .indent → ks.head? ≠ some .dedent) ∧ LaidOut (levelAfter n k) ks

def kinds (ts : List Token) : List TokenKind := ts.map (·.kind)

/-- No text of the grammar begins so. -/
def Flawed (ts : List Token) : Prop :=
  hasTrailingComma ts = true ∨ ∀ n, ¬ LaidOut n (kinds ts)

variable {ts us : List Token} {xs : List Tree} {t u : Token} {ks more : List TokenKind}
  {k : TokenKind} {n : Nat} {e : Expansion} {name : Label} {a : Alternative}
  {P : Label → List Token → Tree → Prop}

/-! ### Tokens of a line and of the layout -/

namespace Terminal

def isLayout : Terminal → Bool
  | newline | indent | dedent | stop => true
  | _ => false

end Terminal

theorem ofLine_of_terminal (h : t.terminal.isLayout = false) : t.kind.OfLine := by
  unfold Token.terminal at h
  unfold TokenKind.OfLine
  revert h
  cases t.kind <;> simp [Terminal.isLayout]

theorem laidOut_ofLine (hk : k.OfLine) : LaidOut n (k :: ks) ↔ LaidOut n ks := by
  have hlevel : levelAfter n k = n := by
    cases k <;> first | rfl | exact hk.elim
  have hindent : k ≠ .indent := by
    rintro rfl
    exact hk
  simp [LaidOut, hk, hlevel, hindent]

theorem laidOut_line (h : ∀ t ∈ ts, t.kind.OfLine) :
    LaidOut n (kinds ts ++ more) ↔ LaidOut n more := by
  induction ts with
  | nil => exact Iff.rfl
  | cons t ts ih =>
    obtain ⟨ht, hts⟩ := List.forall_mem_cons.mp h
    exact (laidOut_ofLine ht).trans (ih hts)

theorem LaidOut.front (h : LaidOut n (ks ++ more)) : LaidOut n ks := by
  induction ks generalizing n with
  | nil => trivial
  | cons k ks ih =>
    obtain ⟨hline, hblock, h⟩ := h
    refine ⟨fun hk hn hhead => hline hk hn ?_, fun hk hhead => hblock hk ?_, ih h⟩
    · rw [List.append_eq, List.head?_append, hhead]
      rfl
    · rw [List.append_eq, List.head?_append, hhead]
      rfl

theorem LaidOut.back (h : LaidOut n (ks ++ more)) : ∃ m, LaidOut m more := by
  induction ks generalizing n with
  | nil => exact ⟨n, h⟩
  | cons k ks ih => exact ih h.2.2

theorem commaBefore_append {close : String} (h : commaBefore close ts = true) :
    commaBefore close (ts ++ us) = true := by
  fun_induction commaBefore close ts with
  | case1 t u rest ih =>
    rw [Bool.and_eq_true, Bool.or_eq_true] at h
    rw [List.cons_append, List.cons_append, commaBefore, Bool.and_eq_true, Bool.or_eq_true]
    exact ⟨h.1, h.2.imp_right ih⟩
  | case2 => cases h

theorem trailingComma_append (h : hasTrailingComma ts = true) :
    hasTrailingComma (ts ++ us) = true := by
  induction ts with
  | nil => cases h
  | cons t ts ih =>
    rw [List.cons_append, hasTrailingComma, Bool.or_eq_true, Bool.or_eq_true, Bool.and_eq_true,
      Bool.and_eq_true]
    rw [hasTrailingComma, Bool.or_eq_true, Bool.or_eq_true, Bool.and_eq_true, Bool.and_eq_true] at h
    exact h.imp (Or.imp (And.imp_right commaBefore_append) (And.imp_right commaBefore_append)) ih

theorem trailingComma_behind (h : hasTrailingComma us = true) :
    hasTrailingComma (ts ++ us) = true := by
  induction ts with
  | nil => exact h
  | cons t ts ih => rw [List.cons_append, hasTrailingComma, ih, Bool.or_true]

theorem Flawed.append (h : Flawed ts) (us : List Token) : Flawed (ts ++ us) := by
  refine h.imp trailingComma_append fun hall n hlaid => hall n ?_
  rw [kinds, List.map_append] at hlaid
  exact hlaid.front

theorem Flawed.behind (h : Flawed us) (ts : List Token) : Flawed (ts ++ us) := by
  refine h.imp trailingComma_behind fun hall n hlaid => ?_
  rw [kinds, List.map_append] at hlaid
  obtain ⟨m, hm⟩ := hlaid.back
  exact hall m hm

/-! ### Rules within a line -/

namespace Label

/-- The rules that cover no token of the layout. -/
def isOfLine : Label → Bool
  | fileInput | stmt | simpleStmt | compoundStmt | ifStmt | elifClause | elseClause | whileStmt
  | forStmt | funcdef | suite => false
  | _ => true

end Label

namespace Expansion

def isOfLine : Expansion → Bool
  | token c => !c.isLayout
  | rule name => name.isOfLine
  | empty => true
  | both a b | either a b => a.isOfLine && b.isOfLine
  | many a => a.isOfLine

/-- Whether it can cover no token, if of the rules in it only that of a whole text can. -/
def isOpen : Expansion → Bool
  | token _ => false
  | rule name => name = .fileInput
  | empty | many _ => true
  | both a b => a.isOpen && b.isOpen
  | either a b => a.isOpen || b.isOpen

end Expansion

theorem rules_ofLine (name : Label) (h : name.isOfLine = true) :
    ∀ a ∈ (grammar name).alternatives, a.body.isOfLine = true := by
  revert h
  cases name <;> decide

theorem rules_not_open (name : Label) (h : name ≠ .fileInput) :
    ∀ a ∈ (grammar name).alternatives, a.body.isOpen = false := by
  revert h
  cases name <;> decide

theorem fits_ofLine (h : Fits P e ts xs) (he : e.isOfLine = true)
    (hrule : ∀ {name us x}, P name us x → name.isOfLine = true → ∀ t ∈ us, t.kind.OfLine) :
    ∀ t ∈ ts, t.kind.OfLine := by
  induction e generalizing ts xs with
  | token c =>
    obtain ⟨t, rfl, rfl, -⟩ := h
    exact List.forall_mem_singleton.mpr
      (ofLine_of_terminal (by simpa [Expansion.isOfLine] using he))
  | rule name =>
    obtain ⟨x, hx, -⟩ := h
    exact hrule hx he
  | empty =>
    obtain ⟨rfl, -⟩ := h
    exact List.forall_mem_nil _
  | both a b iha ihb =>
    obtain ⟨us, vs, ys, zs, ha, hb, rfl, -⟩ := h
    rw [Expansion.isOfLine, Bool.and_eq_true] at he
    exact List.forall_mem_append.mpr ⟨iha ha he.1, ihb hb he.2⟩
  | either a b iha ihb =>
    rw [Expansion.isOfLine, Bool.and_eq_true] at he
    exact h.elim (iha · he.1) (ihb · he.2)
  | many a ih =>
    obtain ⟨parts, hparts, rfl, -⟩ := h
    intro t ht
    obtain ⟨p, hp, ht⟩ := List.mem_flatMap.mp ht
    exact ih (hparts p hp) he t ht

theorem fits_ne_nil (h : Fits P e ts xs) (he : e.isOpen = false)
    (hrule : ∀ {name us x}, P name us x → name ≠ .fileInput → us ≠ []) : ts ≠ [] := by
  induction e generalizing ts xs with
  | token c =>
    obtain ⟨t, -, rfl, -⟩ := h
    exact List.cons_ne_nil t []
  | rule name =>
    obtain ⟨x, hx, -⟩ := h
    exact hrule hx (by simpa [Expansion.isOpen] using he)
  | empty => cases he
  | both a b iha ihb =>
    obtain ⟨us, vs, ys, zs, ha, hb, rfl, -⟩ := h
    intro hnil
    obtain ⟨hus, hvs⟩ := List.append_eq_nil_iff.mp hnil
    rw [Expansion.isOpen, Bool.and_eq_false_iff] at he
    exact he.elim (fun he => iha ha he hus) (fun he => ihb hb he hvs)
  | either a b iha ihb =>
    rw [Expansion.isOpen, Bool.or_eq_false_iff] at he
    exact h.elim (iha · he.1) (ihb · he.2)
  | many a ih => cases he

/-! ### Blocks -/

def Starts (ts : List Token) : Prop := ∃ t rest, ts = t :: rest ∧ t.kind.OfLine

/-- It begins with a token of a line, and the blocks in it are laid out and closed. -/
def BlocksClosed (ts : List Token) : Prop :=
  Starts ts ∧ ∀ {n ks}, LaidOut n (kinds ts ++ ks) ↔
    (n ≠ 0 → ks.head? ≠ some .newline) ∧ LaidOut n ks

theorem starts_line (hne : ts ≠ []) (h : ∀ t ∈ ts, t.kind.OfLine) : Starts (ts ++ us) := by
  obtain ⟨t, rest, rfl⟩ := List.exists_cons_of_ne_nil hne
  exact ⟨t, rest ++ us, rfl, h t List.mem_cons_self⟩

theorem Starts.head (h : Starts ts) :
    (kinds ts ++ ks).head? ≠ some .newline ∧ (kinds ts ++ ks).head? ≠ some .dedent := by
  obtain ⟨t, rest, rfl, ht⟩ := h
  refine ⟨?_, ?_⟩ <;>
  · intro hhead
    have hk := Option.some.inj hhead
    dsimp only at hk
    rw [hk] at ht
    exact ht

theorem kinds_append (ts us : List Token) : kinds (ts ++ us) = kinds ts ++ kinds us :=
  List.map_append

theorem laidOut_newline :
    LaidOut n (.newline :: ks) ↔ (n ≠ 0 → ks.head? ≠ some .newline) ∧ LaidOut n ks := by
  simp [LaidOut, levelAfter, TokenKind.OfLine]

theorem BlocksClosed.ended {line : Token} (hne : ts ≠ []) (h : ∀ t ∈ ts, t.kind.OfLine)
    (hline : line.kind = .newline) : BlocksClosed (ts ++ [line]) := by
  refine ⟨starts_line hne h, fun {n ks} => ?_⟩
  have hkinds : kinds [line] ++ ks = .newline :: ks := by rw [kinds, List.map_singleton, hline]; rfl
  rw [kinds_append, List.append_assoc, laidOut_line h, hkinds]
  exact laidOut_newline

theorem BlocksClosed.after (h : BlocksClosed us) (hne : ts ≠ []) (hts : ∀ t ∈ ts, t.kind.OfLine) :
    BlocksClosed (ts ++ us) := by
  refine ⟨starts_line hne hts, fun {n ks} => ?_⟩
  rw [kinds_append, List.append_assoc, laidOut_line hts]
  exact h.2

theorem BlocksClosed.append (h : BlocksClosed ts) (hus : BlocksClosed us) :
    BlocksClosed (ts ++ us) := by
  obtain ⟨⟨t, rest, rfl, ht⟩, hlaid⟩ := h
  refine ⟨⟨t, _, rfl, ht⟩, fun {n ks} => ?_⟩
  rw [kinds_append, List.append_assoc, hlaid, hus.2]
  exact and_iff_right fun _ => hus.1.head.1

theorem BlocksClosed.many (h : BlocksClosed ts) {parts : List (List Token × List Tree)}
    (hparts : ∀ p ∈ parts, BlocksClosed p.1) : BlocksClosed (ts ++ parts.flatMap Prod.fst) := by
  induction parts generalizing ts with
  | nil => rwa [List.flatMap_nil, List.append_nil]
  | cons p parts ih =>
    obtain ⟨hp, hparts⟩ := List.forall_mem_cons.mp hparts
    rw [List.flatMap_cons, ← List.append_assoc]
    exact ih (h.append hp) hparts

theorem BlocksClosed.suite {colon line indent dedent : Token} (h : BlocksClosed ts)
    (hcolon : colon.kind.OfLine) (hline : line.kind = .newline) (hindent : indent.kind = .indent)
    (hdedent : dedent.kind = .dedent) :
    BlocksClosed (colon :: line :: indent :: ts ++ [dedent]) := by
  refine ⟨⟨colon, _, rfl, hcolon⟩, fun {n ks} => ?_⟩
  have hkinds : kinds (colon :: line :: indent :: ts ++ [dedent]) ++ ks =
      colon.kind :: .newline :: .indent :: (kinds ts ++ .dedent :: ks) := by
    simp [kinds, hline, hindent, hdedent]
  have hdedented : LaidOut (n + 1) (.dedent :: ks) ↔
      (n ≠ 0 → ks.head? ≠ some .newline) ∧ LaidOut n ks := by
    simp [LaidOut, levelAfter, TokenKind.OfLine]
  have hindented : LaidOut n (.indent :: (kinds ts ++ .dedent :: ks)) ↔
      LaidOut (n + 1) (kinds ts ++ .dedent :: ks) :=
    ⟨fun h => h.2.2, fun hinner => ⟨fun _ _ => h.1.head.1, fun _ => h.1.head.2, hinner⟩⟩
  rw [hkinds, laidOut_ofLine hcolon, laidOut_newline, hindented, h.2, hdedented]
  simp

/-- Behind an INDENT and the statements after it there is no end of a line without a line. -/
theorem not_laidOut_blank {parts : List (List Token × List Tree)}
    (h : ∀ p ∈ parts, BlocksClosed p.1) :
    ¬ LaidOut n (.indent :: kinds (parts.flatMap Prod.fst) ++ .newline :: ks) := by
  intro hlaid
  cases parts with
  | nil => exact hlaid.1 id (Nat.succ_ne_zero n) rfl
  | cons p parts =>
    obtain ⟨hp, hparts⟩ := List.forall_mem_cons.mp h
    rw [List.flatMap_cons] at hlaid
    have hblank := (hp.many hparts).2.mp hlaid.2.2
    exact hblank.1 (Nat.succ_ne_zero n) rfl

/-- What the grammar covers is laid out. -/
def Neat (name : Label) (ts : List Token) : Prop :=
  if name = .fileInput then LaidOut 0 (kinds ts)
  else if name.isOfLine then ts ≠ [] ∧ ∀ t ∈ ts, t.kind.OfLine
  else BlocksClosed ts

theorem neat_line (hname : name.isOfLine = true) :
    Neat name ts ↔ ts ≠ [] ∧ ∀ t ∈ ts, t.kind.OfLine := by
  have hinput : name ≠ .fileInput := by
    rintro rfl
    cases hname
  unfold Neat
  rw [if_neg hinput, if_pos hname]

theorem neat_ne_nil (h : Neat name ts) (hname : name ≠ .fileInput) : ts ≠ [] := by
  unfold Neat at h
  rw [if_neg hname] at h
  split at h
  · exact h.1
  · obtain ⟨⟨t, rest, rfl, -⟩, -⟩ := h
    exact List.cons_ne_nil t rest

theorem neat_within (ha : a ∈ (grammar name).alternatives) (hname : name.isOfLine = true)
    (h : Fits (fun name ts _ => Neat name ts) a.body ts xs) : Neat name ts := by
  have hinput : name ≠ .fileInput := by
    rintro rfl
    cases hname
  refine (neat_line hname).mpr ⟨?_, ?_⟩
  · exact fits_ne_nil h (rules_not_open name hinput a ha) neat_ne_nil
  · exact fits_ofLine h (rules_ofLine name hname a ha) fun hx hrule => ((neat_line hrule).mp hx).2

theorem BlocksClosed.token (h : BlocksClosed ts) {c : Terminal} (ht : t.terminal = c)
    (hc : c.isLayout = false) : BlocksClosed (t :: ts) :=
  h.after (List.cons_ne_nil t []) (List.forall_mem_singleton.mpr (ofLine_of_terminal (ht ▸ hc)))

theorem neat_suite (h : Neat .suite ts) : BlocksClosed ts := h

theorem neat_stmt (h : Neat .stmt ts) : BlocksClosed ts := h

theorem neat_test (h : Neat .test ts) : ts ≠ [] ∧ ∀ t ∈ ts, t.kind.OfLine := h

/-- What covers the tokens of a line and then a suite. -/
theorem BlocksClosed.headed (h : Neat .suite us) (hts : Neat .test ts) : BlocksClosed (ts ++ us) :=
  (neat_suite h).after (neat_test hts).1 (neat_test hts).2

section

variable (h : Fits (fun name ts _ => Neat name ts) a.body ts xs)

include h

theorem neat_fileInput (ha : a ∈ (grammar .fileInput).alternatives) : Neat .fileInput ts := by
  obtain rfl := List.mem_singleton.mp ha
  obtain ⟨parts, hparts, rfl, -⟩ := h
  change LaidOut 0 (kinds (parts.flatMap Prod.fst))
  clear ha
  induction parts with
  | nil => trivial
  | cons p parts ih =>
    obtain ⟨hp, hparts⟩ := List.forall_mem_cons.mp hparts
    rw [List.flatMap_cons, kinds_append]
    rcases hp with ⟨t, ht, hp, -⟩ | ⟨x, hx, -⟩
    · have hk : t.kind = .newline := (terminal_kind (by simp)).mp ht
      rw [hp, kinds, List.map_singleton, hk]
      exact laidOut_newline.mpr ⟨fun h => absurd rfl h, ih hparts⟩
    · exact (neat_stmt hx).2.mpr ⟨fun h => absurd rfl h, ih hparts⟩

theorem neat_simpleStmt (ha : a ∈ (grammar .simpleStmt).alternatives) : Neat .simpleStmt ts := by
  obtain rfl := List.mem_singleton.mp ha
  obtain ⟨us, _, _, _, hstatement, ⟨line, hline, rfl, -⟩, rfl, -⟩ := h
  have hkinds := fits_ofLine hstatement rfl fun hx hrule => ((neat_line hrule).mp hx).2
  exact BlocksClosed.ended (fits_ne_nil hstatement rfl neat_ne_nil) hkinds
    ((terminal_kind (by simp)).mp hline)

theorem neat_ifStmt (ha : a ∈ (grammar .ifStmt).alternatives) : Neat .ifStmt ts := by
  obtain rfl := List.mem_singleton.mp ha
  obtain ⟨_, _, _, _, ⟨word, hword, rfl, -⟩, ⟨u, _, _, _, ⟨x, hx, -⟩, ⟨v, _, _, _, ⟨y, hy, -⟩,
    ⟨_, w, _, _, ⟨parts, hparts, rfl, -⟩, hlast, rfl, -⟩, rfl, -⟩, rfl, -⟩, rfl, -⟩ := h
  have hclauses := BlocksClosed.many (BlocksClosed.headed hy hx) fun p hp =>
    show BlocksClosed p.1 by
      obtain ⟨z, hz, -⟩ := hparts p hp
      exact hz
  refine BlocksClosed.token ?_ hword rfl
  rw [List.append_eq, List.nil_append, ← List.append_assoc, ← List.append_assoc]
  rcases hlast with ⟨z, hz, -⟩ | ⟨rfl, -⟩
  · exact hclauses.append hz
  · rwa [List.append_nil]

theorem neat_forStmt (ha : a ∈ (grammar .forStmt).alternatives) : Neat .forStmt ts := by
  obtain rfl := List.mem_singleton.mp ha
  obtain ⟨_, _, _, _, ⟨word, hword, rfl, -⟩, ⟨_, _, _, _, ⟨item, hitem, rfl, -⟩,
    ⟨_, _, _, _, ⟨within, hwithin, rfl, -⟩, ⟨u, v, _, _, ⟨x, hx, -⟩, ⟨y, hy, -⟩, rfl, -⟩, rfl, -⟩,
    rfl, -⟩, rfl, -⟩ := h
  exact (((BlocksClosed.headed hy hx).token hwithin rfl).token hitem rfl).token hword rfl

theorem neat_funcdef (ha : a ∈ (grammar .funcdef).alternatives) : Neat .funcdef ts := by
  obtain rfl := List.mem_singleton.mp ha
  obtain ⟨_, _, _, _, ⟨word, hword, rfl, -⟩, ⟨_, _, _, _, ⟨title, htitle, rfl, -⟩,
    ⟨_, _, _, _, ⟨opening, hopening, rfl, -⟩, ⟨u, _, _, _, hparams,
    ⟨_, v, _, _, ⟨closing, hclosing, rfl, -⟩, ⟨y, hy, -⟩, rfl, -⟩, rfl, -⟩, rfl, -⟩, rfl, -⟩, rfl,
    -⟩ := h
  have hclosed : BlocksClosed (closing :: v) := (neat_suite hy).token hclosing rfl
  have hlisted : BlocksClosed (u ++ closing :: v) := by
    rcases hparams with ⟨x, hx, -⟩ | ⟨rfl, -⟩
    · obtain ⟨hne, hline⟩ := (neat_line rfl).mp hx
      exact hclosed.after hne hline
    · exact hclosed
  exact ((hlisted.token hopening rfl).token htitle rfl).token hword rfl

theorem neat_block (ha : a ∈ (grammar .suite).alternatives) : Neat .suite ts := by
  obtain rfl := List.mem_singleton.mp ha
  obtain ⟨_, _, _, _, ⟨colon, hcolon, rfl, -⟩, ⟨_, _, _, _, ⟨line, hline, rfl, -⟩,
    ⟨_, _, _, _, ⟨indent, hindent, rfl, -⟩, ⟨_, _, _, _,
    ⟨u, _, _, _, ⟨x, hx, -⟩, ⟨parts, hparts, rfl, -⟩, rfl, -⟩, ⟨dedent, hdedent, rfl, -⟩, rfl, -⟩,
    rfl, -⟩, rfl, -⟩, rfl, -⟩ := h
  have hstatements := BlocksClosed.many (neat_stmt hx) fun p hp =>
    show BlocksClosed p.1 by
      obtain ⟨z, hz, -⟩ := hparts p hp
      exact hz
  exact hstatements.suite (ofLine_of_terminal (hcolon ▸ rfl)) ((terminal_kind (by simp)).mp hline)
    ((terminal_kind (by simp)).mp hindent) ((terminal_kind (by simp)).mp hdedent)

theorem neat_step (ha : a ∈ (grammar name).alternatives) : Neat name ts := by
  by_cases hname : name.isOfLine = true
  · exact neat_within ha hname h
  cases name with
  | fileInput => exact neat_fileInput h ha
  | simpleStmt => exact neat_simpleStmt h ha
  | ifStmt => exact neat_ifStmt h ha
  | forStmt => exact neat_forStmt h ha
  | funcdef => exact neat_funcdef h ha
  | suite => exact neat_block h ha
  | stmt | compoundStmt =>
    simp only [grammar, List.mem_cons, List.not_mem_nil, or_false] at ha
    rcases ha with rfl | rfl | rfl | rfl <;>
    · obtain ⟨x, hx, -⟩ := h
      exact hx
  | elifClause | whileStmt =>
    obtain rfl := List.mem_singleton.mp ha
    obtain ⟨_, _, _, _, ⟨word, hword, rfl, -⟩, ⟨u, v, _, _, ⟨x, hx, -⟩, ⟨y, hy, -⟩, rfl, -⟩, rfl,
      -⟩ := h
    exact (BlocksClosed.headed hy hx).token hword rfl
  | elseClause =>
    obtain rfl := List.mem_singleton.mp ha
    obtain ⟨_, v, _, _, ⟨word, hword, rfl, -⟩, ⟨y, hy, -⟩, rfl, -⟩ := h
    exact (neat_suite hy).token hword rfl
  | _ => exact absurd rfl hname

end

theorem Covers.neat {x : Tree} (h : Covers (.rule name) ts [x]) : Neat name ts := by
  obtain ⟨y, hy, -⟩ := h.fits (P := fun name ts _ => Neat name ts) (fun ha _ h => neat_step h ha)
    (List.infix_refl ts)
  exact hy

/-! ### Lists of parameters -/

namespace Terminal

def opensList (c : Terminal) : Bool := c = keyword "lambda" || c = keyword "def"

end Terminal

/-- It has no part in a comma behind parameters. -/
def Commaless (ts : List Token) : Prop := ∀ r, hasTrailingComma (ts ++ r) = hasTrailingComma r

theorem commaless_token (h : t.terminal.opensList = false) : Commaless [t] := by
  intro r
  rw [Terminal.opensList, Bool.or_eq_false_iff, decide_eq_false_iff_not, decide_eq_false_iff_not,
    terminal_keyword, terminal_keyword, Bool.not_eq_true, Bool.not_eq_true] at h
  rw [List.singleton_append, hasTrailingComma, h.1, h.2]
  rfl

theorem Commaless.append (h : Commaless ts) (hus : Commaless us) : Commaless (ts ++ us) := by
  intro r
  rw [List.append_assoc, h, hus]

def Expansion.opensNoList : Expansion → Bool
  | token c => !c.opensList
  | rule _ | empty => true
  | both a b | either a b => a.opensNoList && b.opensNoList
  | many a => a.opensNoList

theorem rules_commaless (name : Label) (h : name ≠ .lambdef ∧ name ≠ .funcdef) :
    ∀ a ∈ (grammar name).alternatives, a.body.opensNoList = true := by
  revert h
  cases name <;> decide

/-- No comma stands before a mark that closes these tokens. -/
def Parts (ts : List Token) : Prop :=
  ∀ {close : String} {t : Token} {r : List Token}, t.is .delimiter close = true →
    commaBefore close (ts ++ t :: r) = false

def Uncommaed (name : Label) (ts : List Token) : Prop := Commaless ts ∧ (name = .params → Parts ts)

theorem fits_commaless (h : Fits (fun name ts _ => Uncommaed name ts) e ts xs)
    (he : e.opensNoList = true) : Commaless ts := by
  induction e generalizing ts xs with
  | token c =>
    obtain ⟨t, rfl, rfl, -⟩ := h
    exact commaless_token (by simpa [Expansion.opensNoList] using he)
  | rule name =>
    obtain ⟨x, hx, -⟩ := h
    exact hx.1
  | empty =>
    obtain ⟨rfl, -⟩ := h
    exact fun _ => rfl
  | both a b iha ihb =>
    obtain ⟨us, vs, ys, zs, ha, hb, rfl, -⟩ := h
    rw [Expansion.opensNoList, Bool.and_eq_true] at he
    exact (iha ha he.1).append (ihb hb he.2)
  | either a b iha ihb =>
    rw [Expansion.opensNoList, Bool.and_eq_true] at he
    exact h.elim (iha · he.1) (ihb · he.2)
  | many a ih =>
    obtain ⟨parts, hparts, rfl, -⟩ := h
    clear xs
    induction parts with
    | nil => exact fun _ => rfl
    | cons p parts ihparts =>
      obtain ⟨hp, hparts⟩ := List.forall_mem_cons.mp hparts
      rw [List.flatMap_cons]
      exact (ih hp he).append (ihparts hparts)

theorem commaBefore_close {close : String} (h : t.is .delimiter close = true) :
    commaBefore close (t :: ts) = false := by
  cases ts with
  | nil => rfl
  | cons u ts => rw [commaBefore, h, Bool.not_true, Bool.false_and]

theorem commaBefore_other {close : String} (h : t.kind ≠ .delimiter) :
    commaBefore close (t :: u :: ts) = commaBefore close (u :: ts) := by
  have his (text : String) : t.is .delimiter text = false := by simp [Token.is, h]
  rw [commaBefore, his, his, Bool.not_false, Bool.true_and, Bool.false_and, Bool.false_or]

theorem listed_parts (h : Fits P (.listed (.token .name)) ts xs) : Parts ts := by
  intro close mark r hmark
  obtain ⟨_, _, _, _, ⟨item, hitem, rfl, -⟩, ⟨parts, hparts, rfl, -⟩, rfl, -⟩ := h
  clear xs
  have hkind {t : Token} (ht : t.terminal = .name) : t.kind = .identifier :=
    (terminal_kind (by simp)).mp ht
  induction parts generalizing item with
  | nil =>
    rw [List.flatMap_nil, List.append_nil, List.singleton_append,
      commaBefore_other (by simp [hkind hitem]), commaBefore_close hmark]
  | cons p parts ih =>
    obtain ⟨⟨_, _, _, _, ⟨comma, hcomma, rfl, -⟩, ⟨item', hitem', rfl, -⟩, hp, -⟩, hparts⟩ :=
      List.forall_mem_cons.mp hparts
    have hlater := ih item' hitem' hparts
    have hother : item'.is .delimiter close = false := by simp [Token.is, hkind hitem']
    rw [List.singleton_append] at hlater
    have hsplit : [item] ++ (p :: parts).flatMap Prod.fst ++ mark :: r =
        item :: comma :: item' :: (parts.flatMap Prod.fst ++ mark :: r) := by
      simp [hp]
    rw [hsplit, commaBefore_other (by simp [hkind hitem]), commaBefore, hother, Bool.and_false,
      Bool.false_or]
    exact Bool.and_eq_false_imp.mpr fun _ => hlater

/-- What stands between a word that opens a list of parameters and what closes it. -/
theorem optional_parts
    (h : Fits (fun name ts _ => Uncommaed name ts) (.optional (.rule .params)) ts xs) :
    Commaless ts ∧ Parts ts := by
  rcases h with ⟨x, ⟨hplain, hparts⟩, -⟩ | ⟨rfl, -⟩
  · exact ⟨hplain, hparts rfl⟩
  · exact ⟨fun _ => rfl, commaBefore_close⟩

theorem lambda_commaless {word colon : Token} (hword : word.is .keyword "lambda" = true)
    (hcolon : colon.is .delimiter ":" = true) (hparts : Parts ts)
    (h : Commaless (ts ++ colon :: us)) :
    Commaless (word :: (ts ++ colon :: us)) := by
  intro r
  have hdef : word.is .keyword "def" = false := by
    obtain ⟨-, hl⟩ := is_iff.mp hword
    simp [Token.is, hl]
  have hlist : commaBefore ":" (ts ++ colon :: us ++ r) = false := by
    rw [List.append_assoc]
    exact hparts hcolon
  rw [List.cons_append, hasTrailingComma, hlist, hdef, h, Bool.and_false, Bool.false_and]
  rfl

theorem def_commaless {word title opening closing : Token} (hword : word.is .keyword "def" = true)
    (htitle : title.kind = .identifier) (hopening : opening.is .delimiter "(" = true)
    (hclosing : closing.is .delimiter ")" = true) (hparts : Parts ts)
    (h : Commaless (title :: opening :: (ts ++ closing :: us))) :
    Commaless (word :: title :: opening :: (ts ++ closing :: us)) := by
  intro r
  have hlambda : word.is .keyword "lambda" = false := by
    obtain ⟨-, hl⟩ := is_iff.mp hword
    simp [Token.is, hl]
  have hlist : commaBefore ")" (title :: opening :: (ts ++ closing :: us) ++ r) = false := by
    have hlater : commaBefore ")" (ts ++ closing :: (us ++ r)) = false :=
      hparts hclosing
    obtain ⟨v, vs, hvs⟩ : ∃ v vs, ts ++ closing :: (us ++ r) = v :: vs :=
      List.exists_cons_of_ne_nil (by simp)
    obtain ⟨-, hl⟩ := is_iff.mp hopening
    have hcomma : opening.is .delimiter "," = false := by simp [Token.is, hl]
    rw [List.cons_append, List.cons_append, commaBefore_other (by simp [htitle]), List.append_assoc,
      List.cons_append, hvs, commaBefore, hcomma, ← hvs, hlater, Bool.false_and, Bool.false_or,
      Bool.and_false]
  rw [List.cons_append, hasTrailingComma, hlist, hlambda, h, Bool.and_false, Bool.false_and]
  rfl

theorem uncommaed_step (ha : a ∈ (grammar name).alternatives)
    (h : Fits (fun name ts _ => Uncommaed name ts) a.body ts xs) : Uncommaed name ts := by
  by_cases hlambda : name = .lambdef
  · subst hlambda
    refine ⟨?_, fun h => nomatch h⟩
    obtain rfl := List.mem_singleton.mp ha
    obtain ⟨_, _, _, _, ⟨word, hword, rfl, -⟩, ⟨u, _, _, _, hparams, hrest, rfl, -⟩, rfl, -⟩ := h
    obtain ⟨hplain, hparts⟩ := optional_parts hparams
    have hbody := fits_commaless hrest rfl
    obtain ⟨_, v, _, _, ⟨colon, hcolon, rfl, -⟩, -, rfl, -⟩ := hrest
    exact lambda_commaless (terminal_keyword.mp hword) (terminal_delimiter.mp hcolon) hparts
      (hplain.append hbody)
  by_cases hdef : name = .funcdef
  · subst hdef
    refine ⟨?_, fun h => nomatch h⟩
    obtain rfl := List.mem_singleton.mp ha
    obtain ⟨_, _, _, _, ⟨word, hword, rfl, -⟩, ⟨_, _, _, _, ⟨title, htitle, rfl, -⟩,
      ⟨_, _, _, _, ⟨opening, hopening, rfl, -⟩, ⟨u, _, _, _, hparams, hrest, rfl, -⟩, rfl, -⟩, rfl,
      -⟩, rfl, -⟩ := h
    obtain ⟨hplain, hparts⟩ := optional_parts hparams
    have hbody := fits_commaless hrest rfl
    have hfront : Commaless [title, opening] :=
      (commaless_token (htitle ▸ rfl)).append (commaless_token (hopening ▸ rfl))
    obtain ⟨_, v, _, _, ⟨closing, hclosing, rfl, -⟩, -, rfl, -⟩ := hrest
    exact def_commaless (terminal_keyword.mp hword) ((terminal_kind (by simp)).mp htitle)
      (terminal_delimiter.mp hopening) (terminal_delimiter.mp hclosing) hparts
      (hfront.append (hplain.append hbody))
  · refine ⟨fits_commaless h (rules_commaless name ⟨hlambda, hdef⟩ a ha), ?_⟩
    rintro rfl
    obtain rfl := List.mem_singleton.mp ha
    exact listed_parts h

/-! ### Texts of the grammar -/

/-- No text of the grammar is flawed. -/
theorem sentence_unflawed {tree : Tree} (h : Sentence ts tree) : ¬ Flawed ts := by
  obtain ⟨x, ⟨hplain, -⟩, -⟩ := h.fits (P := fun name ts _ => Uncommaed name ts)
    (fun ha _ h => uncommaed_step ha h) (List.infix_refl ts)
  have hlaid : LaidOut 0 (kinds ts) := Covers.neat h
  rintro (hcomma | hall)
  · have hnone := hplain []
    rw [List.append_nil, hcomma] at hnone
    cases hnone
  · exact hall 0 hlaid

end Reference

end Offside
