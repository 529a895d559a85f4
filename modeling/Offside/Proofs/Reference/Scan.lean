import Offside.Proofs.Lexer.FormFeed
import Offside.Proofs.Lexer.Layout
import Offside.Proofs.Reference.LineEnd
import Offside.Proofs.Reference.Word

/-!
What the scanner of the grammar has ahead of it, in the words of the lexer. As long as the two have
read the same words they stand at the same place with the same open levels and brackets. So the
scanner finds the words of the lexer for as long as those are legal; only delimiters need not be,
since without them it finds nothing.
-/

namespace Offside

namespace Lexer.Scan

variable {s s' z : Scan} {ws : List Word} {new : List Token}

/-- The words that the end of the text adds, up to the END. -/
def ending (s : Scan) : List Word :=
  (if s.pending then [⟨.newline, ""⟩] else []) ++ List.replicate s.indents.length dedentWord

/-- These words are still to be read. -/
def Awaits (s : Scan) (ws : List Word) : Prop :=
  ∃ z, Reads s z ∧ z.rest = [] ∧
    z.tokens.reverse.map Token.plain ++ z.ending = s.tokens.reverse.map Token.plain ++ ws

theorem finish_ending (s : Scan) : s.finish.map Token.plain =
    s.tokens.reverse.map Token.plain ++ s.ending ++ [⟨.stop, ""⟩] := by
  have hclosing : s.closing.map Token.plain =
      List.replicate s.indents.length dedentWord ++ [⟨.stop, ""⟩] := by
    simp [closing, dedentWord, Token.plain, Word.plain, Token.word]
  rw [finish_pending, List.map_append, List.map_append, hclosing, ending]
  split <;> simp [Token.plain, Word.plain, Token.word]

theorem next_unique : Relator.RightUnique Next := by
  intro s a b ha hb
  exact Except.ok.inj (ha.2.symm.trans hb.2)

theorem reads_tokens (h : Reads s s') : ∃ new, s'.tokens = new ++ s.tokens := by
  induction h with
  | refl => exact ⟨[], rfl⟩
  | tail _ hnext ih =>
    obtain ⟨new, hnew⟩ := ih
    obtain ⟨new', hnew'⟩ := turn_new hnext.turn
    exact ⟨new' ++ new, by rw [hnew', hnew, List.append_assoc]⟩

theorem reads_of_end (h : Reads s s') (hend : s.rest = []) : s' = s := by
  rcases Relation.ReflTransGen.cases_head h with heq | ⟨c, hc, -⟩
  · exact heq.symm
  · exact absurd hc (not_next_of_end hend c)

/-- A reading that ends comes by every scan that can be reached. -/
theorem reads_on (h : Reads s s') (hz : Reads s z) (hend : z.rest = []) : Reads s' z := by
  rcases Relation.ReflTransGen.total_of_right_unique next_unique h hz with h | h
  · exact h
  · rw [reads_of_end h hend]

/-- Where reading goes on, the words that it gives come first. -/
theorem Awaits.reads (h : s.Awaits ws) (hr : Reads s s') (new : List Token)
    (hnew : s'.tokens = new ++ s.tokens) :
    ∃ us, ws = new.reverse.map Token.plain ++ us ∧ s'.Awaits us := by
  obtain ⟨z, hz, hend, hwords⟩ := h
  have hreads := reads_on hr hz hend
  obtain ⟨more, hmore⟩ := reads_tokens hreads
  rw [hmore, hnew] at hwords
  simp only [List.reverse_append, List.map_append, List.append_assoc] at hwords
  refine ⟨more.reverse.map Token.plain ++ z.ending, ?_, z, hreads, hend, ?_⟩
  · exact (List.append_cancel_left hwords).symm
  · simp [hmore]

/-- Before the end a step leads on. -/
theorem Awaits.next (h : s.Awaits ws) (hne : s.rest ≠ []) : ∃ s', Next s s' := by
  obtain ⟨z, hz, hend, -⟩ := h
  rcases Relation.ReflTransGen.cases_head hz with rfl | ⟨s', hnext, -⟩
  · exact absurd hend hne
  · exact ⟨s', hnext⟩

/-- At the end of the text, unless a line is open, only the levels are closed. -/
theorem Awaits.ended (h : s.Awaits ws) (hend : s.rest = []) (hp : s.pending = false) :
    ws = List.replicate s.indents.length dedentWord := by
  obtain ⟨z, hz, -, hwords⟩ := h
  rw [reads_of_end hz hend, ending, hp, if_neg Bool.false_ne_true, List.nil_append] at hwords
  exact (List.append_cancel_left hwords).symm

end Lexer.Scan

namespace Reference

open Lexer

/-- The lexer stands in a line of the text where the scanner stands. -/
structure InStep (cs : List Char) (r : Scanner) (s : Scan) : Prop where
  reads : Scan.Reads (.start cs) s
  inside : s.lineStart = false
  rest : s.rest = r.rest
  indents : s.indents = r.indents
  depth : s.depth = r.brackets

/-- A carriage return that begins a line of the lexer, apart from its indentation, ends the line. -/
def Undropped (cs : List Char) : Prop :=
  ∀ s lead more, Scan.Reads (.start cs) s → s.lineStart = true → s.rest = lead ++ '\r' :: more →
    IsIndentation lead → more.head? = some '\n'

/-- These words are still to be found. -/
inductive Upcoming (cs : List Char) (r : Scanner) : List Word → Prop where
  | ended : r.rest = [] → Upcoming cs r (List.replicate r.indents.length dedentWord)
  | line {s : Scan} {ws : List Word} : InStep cs r s → s.Awaits ws → Upcoming cs r ws

/-- One step of the scanner: it passes over blanks or the end of a line, or it looks for the next
word. It finds that where it is legal, and a delimiter or nothing where a delimiter comes next. -/
inductive ScannerStep (cs : List Char) (r : Scanner) : List Word → Prop where
  | layout {r' : Scanner} {new : List Token} {ws : List Word} : (∀ t ∈ new, ¬ t.kind.OfLine) →
      r'.rest.length < r.rest.length → Upcoming cs r' ws →
      (∀ legal fuel read, r.tokens legal (fuel + 1) read = r'.tokens legal fuel (read ++ new)) →
      ScannerStep cs r (new.map Token.plain ++ ws)
  | word {r' : Scanner} {t : Token} {ws : List Word} : t.kind.OfLine →
      r'.rest.length < r.rest.length → Upcoming cs r' ws →
      (∀ legal fuel read, t.plain.Legible → legal (read.map Token.terminal) t.terminal = true →
        r.tokens legal (fuel + 1) read = r'.tokens legal fuel (read ++ [t])) →
      (∀ legal fuel read, t.kind = .delimiter →
        r.tokens legal (fuel + 1) read = r'.tokens legal fuel (read ++ [t]) ∨
          r.tokens legal (fuel + 1) read = none) →
      ScannerStep cs r (t.plain :: ws)

variable {cs comment blanks lead after : List Char} {r r' : Scanner} {s s' : Scan}
  {ws front back : List Word} {fuel : Nat} {c : Char} {rest : List Char} {t : Token}
  {read all new : List Token} {legal : Legality}

theorem undropped_of_not_mem (h : '\r' ∉ cs) : Undropped cs := by
  intro s lead more hreads _ hrest _
  exact absurd ((Scan.reads_suffix hreads).mem (by simp [hrest])) h

/-- Where a line of the lexer goes on, it goes on with its content. -/
theorem GoesOn.content (hin : Undropped cs) (hreads : Scan.Reads (.start cs) s)
    (hl : s.lineStart = true) (hrest : s.rest = lead ++ c :: rest) (hlead : IsIndentation lead)
    (h : GoesOn c rest) : IsContent c := by
  have hnot : ¬ (c = '\n' ∨ c = '#' ∨ c = '\r' ∧ rest.head? = some '\n') := by
    rw [← startsLineEnd_cons, h.starts]
    exact Bool.false_ne_true
  rw [not_or, not_or] at hnot
  refine ⟨h.indentation, ?_, hnot.1, hnot.2.1⟩
  rintro rfl
  exact hnot.2.2 ⟨rfl, hin s lead rest hreads hl hrest hlead⟩

/-! ### The end of a line -/

theorem lineEnd_deeper {taken : List Char} (h : r.indents.headD 0 < lastWidth taken) :
    r.lineEnd? taken = some ([⟨.newline, String.ofList taken, r.pos⟩, ⟨.indent, "", r.pos⟩],
      { r.skip taken with indents := lastWidth taken :: r.indents }) := if_pos h

/-- The levels that are deeper than the next line are closed. -/
theorem lineEnd_back {taken : List Char} {inner outer : List Nat}
    (hsplit : r.indents = inner ++ outer) (hinner : ∀ w ∈ inner, lastWidth taken < w)
    (htop : outer.headD 0 = lastWidth taken) :
    r.lineEnd? taken = some (⟨.newline, String.ofList taken, r.pos⟩ ::
      List.replicate inner.length ⟨.dedent, "", r.pos⟩,
        { r.skip taken with indents := outer }) := by
  have hnot : ¬ r.indents.headD 0 < lastWidth taken := by
    rw [hsplit]
    cases inner with
    | nil => exact Nat.not_lt.mpr (Nat.le_of_eq htop.symm)
    | cons w inner => exact Nat.not_lt.mpr (Nat.le_of_lt (hinner w List.mem_cons_self))
  have hopen : openWidths (lastWidth taken) r.indents = outer := by
    unfold openWidths
    rw [hsplit, List.dropWhile_append_of_pos (by simpa using hinner)]
    cases outer with
    | nil => rfl
    | cons w outer =>
      obtain rfl : w = lastWidth taken := htop
      rw [List.dropWhile_cons, if_neg (by simp)]
  have hcount : r.indents.length - outer.length = inner.length := by
    rw [hsplit, List.length_append, Nat.add_sub_cancel]
  unfold Scanner.lineEnd?
  dsimp only
  rw [if_neg hnot, hopen, hcount, if_pos htop]

theorem positive_indents (h : Scan.Reads (.start cs) s) : ∀ w ∈ s.indents, 0 < w := fun _ hw =>
  List.rel_of_pairwise_cons (Scan.reads_stacked h).level.rising (List.mem_reverse.mpr hw)

/-- Behind the end of a line the lexer goes on at the start of the next line with content. -/
theorem lineEnd_upcoming (hin : Undropped cs) (h : Break r.rest comment blanks lead after)
    (hb : r.brackets = 0) (hreads : Scan.Reads (.start cs) s) (hrest : s.rest = lead ++ after)
    (hl : s.lineStart = true) (hi : s.indents = r.indents) (hd : s.depth = 0)
    (hawaits : s.Awaits ws) :
    ∃ line new r' us, r.lineEnd? (comment ++ '\n' :: (blanks ++ lead)) = some (line :: new, r') ∧
      line.kind = .newline ∧ (∀ t ∈ new, ¬ t.kind.OfLine) ∧ r'.rest = after ∧
      ws = new.map Token.plain ++ us ∧ Upcoming cs r' us := by
  have hdrop : r.rest.drop (comment ++ '\n' :: (blanks ++ lead)).length = after := by
    rw [h.append, List.drop_left]
  have hwidth := h.lastWidth
  generalize comment ++ '\n' :: (blanks ++ lead) = taken at hdrop hwidth
  have hdedents (n : Nat) : ∀ t ∈ List.replicate n (⟨.dedent, "", r.pos⟩ : Token),
      ¬ t.kind.OfLine := by
    intro t ht
    simp [List.eq_of_mem_replicate ht, TokenKind.OfLine]
  have hplain (n : Nat) : (List.replicate n (⟨.dedent, "", r.pos⟩ : Token)).map Token.plain =
      List.replicate n dedentWord := List.map_replicate
  rcases h.continued with ⟨rfl, rfl⟩ | ⟨c, more, rfl, hgoes⟩
  · have hzero : lastWidth taken = 0 := hwidth
    obtain rfl := hawaits.ended hrest (Scan.not_pending hreads hl)
    refine ⟨_, _, _, [], lineEnd_back (List.append_nil r.indents).symm
      (fun w hw => hzero ▸ positive_indents hreads w (hi ▸ hw)) hzero.symm, rfl, hdedents _, hdrop,
      ?_, .ended hdrop⟩
    rw [hplain, hi, List.append_nil]
  · have hline : s.AtLine lead c more :=
      ⟨hl, hrest, h.indented, hgoes.content hin hreads hl hrest h.indented⟩
    obtain ⟨s', hnext⟩ := hawaits.next (by simp [hrest])
    have hsettles := hline.settles
    rw [hnext.2] at hsettles
    have hreads' := hreads.tail hnext
    generalize hr : Except.ok s' = result at hsettles
    cases hsettles with
    | deeper hlt =>
      cases hr
      obtain ⟨us, rfl, hawaits'⟩ := hawaits.reads (.single hnext) [_] rfl
      rw [← hwidth] at hlt hreads' hawaits'
      refine ⟨_, [⟨.indent, "", r.pos⟩], _, us, lineEnd_deeper (hi ▸ hlt), rfl,
        by simp [TokenKind.OfLine], hdrop, rfl, .line ⟨hreads', rfl, hdrop.symm,
          congrArg (lastWidth taken :: ·) hi, hd.trans hb.symm⟩ hawaits'⟩
    | @back inner outer hsplit hinner htop =>
      cases hr
      obtain ⟨us, rfl, hawaits'⟩ := hawaits.reads (.single hnext) _ rfl
      refine ⟨_, _, _, us, lineEnd_back (hi ▸ hsplit) (hwidth ▸ hinner) (hwidth ▸ htop), rfl,
        hdedents _, hdrop, ?_, .line ⟨hreads', rfl, hdrop.symm, rfl, hd.trans hb.symm⟩ hawaits'⟩
      rw [hplain, List.reverse_replicate, List.map_replicate]
      rfl
    | refused => cases hr

/-! ### One step -/

theorem isSpace_eq (c : Char) : Reference.isSpace c = Lexer.isSpace c := by
  unfold Reference.isSpace Lexer.isSpace
  cases c == ' ' <;> cases c == '\t' <;> cases c == '\x0c' <;> cases c == '\r' <;> rfl

theorem tokens_nil (h : r.rest = []) : r.tokens legal (fuel + 1) read =
    some (read ++ r.indents.map fun _ => ⟨.dedent, "", r.pos⟩) := by
  rw [Scanner.tokens, h]

theorem tokens_cons (h : r.rest = c :: rest) : r.tokens legal (fuel + 1) read =
    if startsLineEnd r.rest = true then
      if r.brackets = 0 then
        (r.lineEnd? (lineEndText false false r.rest)).bind fun p =>
          p.2.tokens legal fuel (read ++ p.1)
      else (r.skip (lineEndText false false r.rest)).tokens legal fuel read
    else if isSpace c = true then (r.skip (r.rest.takeWhile isSpace)).tokens legal fuel read
    else (scanWord? (legal (read.map Token.terminal)) r.rest).bind fun p =>
      (r.pass p.1 p.2).tokens legal fuel (read ++ [⟨p.1, String.ofList p.2, r.pos⟩]) := by
  obtain ⟨text, pos, indents, brackets⟩ := r
  obtain rfl : text = c :: rest := h
  rfl

theorem skip_rest (taken : List Char) : (r.skip taken).rest = r.rest.drop taken.length := rfl

/-- The scanner counts brackets as the lexer does. -/
theorem pass_brackets (kind : TokenKind) (taken : List Char) :
    (r.pass kind taken).brackets = wordDepth r.brackets ⟨kind, String.ofList taken⟩ := by
  unfold Scanner.pass wordDepth
  generalize htext : (String.ofList taken).toList = text
  rw [String.toList_ofList] at htext
  subst htext
  cases kind <;> rfl

/-- The next word of the lexer in a line. -/
theorem word_next (hat : InStep cs r s) (hawaits : s.Awaits ws) (hrest : r.rest = c :: rest)
    (hc : Inner c) : ∃ x k us, fragment s.depth c rest = .ok x ∧ x.kind = some k ∧
      ws = ⟨k, String.ofList x.taken⟩ :: us ∧ k.OfLine ∧ Scan.Next s (s.pass x) ∧
      (s.pass x).Awaits us := by
  have hs : s.rest = c :: rest := hat.rest.trans hrest
  obtain ⟨s', hnext⟩ := hawaits.next (by simp [hs])
  have hstep := hnext.2
  rw [step_eq hat.inside hs, Scan.stepInLine_fragment hs hc.newline] at hstep
  cases hx : fragment s.depth c rest with
  | error f =>
    rw [hx] at hstep
    cases hstep
  | ok x =>
    rw [hx] at hstep
    cases hstep
    obtain ⟨k, hk⟩ := fragment_kind hc hx
    have hline : k.OfLine := (fragment_isWord hx hk).ofLine
    have hnew : (s.pass x).tokens = [⟨k, String.ofList x.taken, s.pos⟩] ++ s.tokens := by
      simp [Scan.pass, hk]
    obtain ⟨us, rfl, hawaits'⟩ := hawaits.reads (.single hnext) _ hnew
    have hplain :
        (⟨k, String.ofList x.taken, s.pos⟩ : Token).plain = ⟨k, String.ofList x.taken⟩ := by
      refine Token.plain_eq ?_
      rintro rfl
      exact hline
    refine ⟨x, k, us, rfl, hk, ?_, hline, hnext, hawaits'⟩
    rw [List.reverse_singleton, List.map_singleton, hplain]
    rfl

theorem word_steps (hat : InStep cs r s) (hawaits : s.Awaits ws) (hrest : r.rest = c :: rest)
    (hstarts : startsLineEnd r.rest = false) (hspace : Reference.isSpace c = false) (hc : Inner c) :
    ScannerStep cs r ws := by
  obtain ⟨x, k, us, hx, hk, rfl, hline, hnext, hawaits'⟩ := word_next hat hawaits hrest hc
  have hscan (legal : Terminal → Bool) := scanWord_fragment legal hc hx hk
  obtain ⟨hsplit, -⟩ := fragment_split hc.newline hx
  have hdrop : (r.pass k x.taken).rest = x.rest := by
    change r.rest.drop x.taken.length = x.rest
    rw [hrest, hsplit, List.drop_left]
  have hplain : (⟨k, String.ofList x.taken, r.pos⟩ : Token).plain = ⟨k, String.ofList x.taken⟩ := by
    refine Token.plain_eq ?_
    rintro rfl
    exact hline
  have htokens {legal : Legality} {fuel : Nat} {read : List Token} :
      r.tokens legal (fuel + 1) read =
      (scanWord? (legal (read.map Token.terminal)) (c :: rest)).bind fun p =>
        (r.pass p.1 p.2).tokens legal fuel (read ++ [⟨p.1, String.ofList p.2, r.pos⟩]) := by
    rw [tokens_cons hrest, if_neg (by simp [hstarts]), if_neg (by simp [hspace]), hrest]
  have hat' : InStep cs (r.pass k x.taken) (s.pass x) := by
    refine ⟨hat.reads.tail hnext, hat.inside, hdrop.symm, hat.indents, ?_⟩
    rw [pass_brackets, ← hat.depth]
    exact fragment_depth hx hk
  have hpos : 0 < x.taken.length := Scan.IsWord.length_pos (fragment_isWord hx hk)
  have hlen := congrArg List.length hsplit
  rw [← hrest, List.length_append] at hlen
  rw [← hplain]
  refine .word hline (by rw [hdrop]; omega) (.line hat' hawaits') ?_ ?_
  · intro legal fuel read hl hlegal
    rw [hplain] at hl
    rw [htokens, (hscan _).1 hl hlegal]
    rfl
  · intro legal fuel read hd
    rcases (hscan (legal (read.map Token.terminal))).2 hd with hword | hnone
    · left
      rw [htokens, hword]
      rfl
    · right
      rw [htokens, hnone]
      rfl

/-- At the start of a line end it is passed over, and gives its tokens outside of brackets. -/
theorem break_steps {s : Scan} {c : Char} {rest : List Char} (hm : AtMargin cs) (hin : Undropped cs)
    (hat : InStep cs r s) (hawaits : s.Awaits ws) (hrest : r.rest = c :: rest)
    (hstarts : startsLineEnd r.rest = true) : ScannerStep cs r ws := by
  have hsuffix := Scan.reads_suffix hat.reads
  rw [hat.rest] at hsuffix
  obtain ⟨comment, blanks, lead, after, hbreak, htaken⟩ :=
    exists_break (atMargin_suffix hm hsuffix) hstarts
  have hlen := congrArg List.length hbreak.append
  rw [List.length_append, List.length_append, List.length_cons] at hlen
  by_cases hb : r.brackets = 0
  · obtain ⟨s', p, hreads, hrest', hl, hi, hd, hnew⟩ :=
      (hat.rest ▸ hbreak).reads_newline hat.inside (hat.depth.trans hb)
    obtain ⟨us, rfl, hawaits'⟩ := hawaits.reads hreads [_] hnew
    obtain ⟨line, new, r', vs, hend, hline, hlayout, hafter, rfl, hahead⟩ :=
      lineEnd_upcoming hin hbreak hb (hat.reads.trans hreads) hrest' hl (hi.trans hat.indents) hd
        hawaits'
    have hplain : line.plain = ⟨.newline, ""⟩ := if_pos hline
    have hsteps : ScannerStep cs r ((line :: new).map Token.plain ++ vs) := by
      refine .layout (List.forall_mem_cons.mpr ⟨by simp [hline, TokenKind.OfLine], hlayout⟩)
        (by rw [hafter]; omega) hahead fun legal fuel read => ?_
      rw [tokens_cons hrest, if_pos hstarts, if_pos hb, htaken, hend]
      rfl
    rw [List.map_cons, hplain] at hsteps
    exact hsteps
  · have hreads := (hat.rest ▸ hbreak).reads_inside hat.inside
      (hat.depth ▸ Nat.pos_of_ne_zero hb)
    obtain ⟨us, rfl, hawaits'⟩ := hawaits.reads hreads [] rfl
    have hdrop : r.rest.drop (comment ++ '\n' :: (blanks ++ lead)).length = after := by
      rw [hbreak.append, List.drop_left]
    have hahead : Upcoming cs (r.skip (comment ++ '\n' :: (blanks ++ lead))) _ :=
      .line ⟨hat.reads.trans hreads, hat.inside, hdrop.symm, hat.indents, hat.depth⟩ hawaits'
    refine .layout (List.forall_mem_nil _) (by rw [skip_rest, hdrop]; omega) hahead
      fun legal fuel read => ?_
    rw [tokens_cons hrest, if_pos hstarts, if_neg hb, htaken, List.append_nil]

/-- Blanks within a line are passed over. -/
theorem blank_steps {s : Scan} {c : Char} {rest : List Char} (hat : InStep cs r s)
    (hawaits : s.Awaits ws) (hrest : r.rest = c :: rest) (hstarts : ¬ startsLineEnd r.rest = true)
    (hspace : Reference.isSpace c = true) : ScannerStep cs r ws := by
  obtain ⟨blanks, after, hsplit, hblanks⟩ : ∃ blanks after, r.rest = blanks ++ after ∧
      blanks = r.rest.takeWhile isSpace :=
    ⟨_, _, List.takeWhile_append_dropWhile.symm, rfl⟩
  have hall : ∀ d ∈ blanks, Lexer.isSpace d = true := by
    intro d hd
    rw [hblanks] at hd
    rw [← isSpace_eq]
    exact List.mem_takeWhile_imp hd
  have hpos : 0 < blanks.length := by
    rw [hblanks, hrest, List.takeWhile_cons, if_pos hspace]
    exact Nat.succ_pos _
  have hreads := Scan.reads_blanks hat.inside (hat.rest.trans hsplit) hall
  obtain ⟨us, rfl, hawaits'⟩ := hawaits.reads hreads [] rfl
  have hdrop : r.rest.drop blanks.length = after := by
    rw [hsplit, List.drop_left]
  have hlen := congrArg List.length hsplit
  rw [List.length_append] at hlen
  have hahead : Upcoming cs (r.skip blanks) _ :=
    .line ⟨hat.reads.trans hreads, hat.inside, hdrop.symm, hat.indents, hat.depth⟩ hawaits'
  refine .layout (List.forall_mem_nil _) (by rw [skip_rest, hdrop]; omega) hahead
    fun legal fuel read => ?_
  rw [tokens_cons hrest, if_neg hstarts, if_pos hspace, ← hblanks, List.append_nil]

theorem upcoming_steps (hm : AtMargin cs) (hin : Undropped cs) (h : Upcoming cs r ws)
    (hne : r.rest ≠ []) :
    ScannerStep cs r ws := by
  cases h with
  | ended hend => exact absurd hend hne
  | line hat hawaits =>
    obtain ⟨c, rest, hrest⟩ := List.exists_cons_of_ne_nil hne
    by_cases hstarts : startsLineEnd r.rest = true
    · exact break_steps hm hin hat hawaits hrest hstarts
    by_cases hspace : Reference.isSpace c = true
    · exact blank_steps hat hawaits hrest hstarts hspace
    · have hnot := hstarts
      rw [hrest, startsLineEnd_cons, not_or, not_or] at hnot
      have hspace : Reference.isSpace c = false := by simpa using hspace
      exact word_steps hat hawaits hrest (by simpa using hstarts) hspace
        ⟨hnot.1, (isSpace_eq c).symm.trans hspace, hnot.2.1⟩

/-- At the end of the text only the levels are closed. -/
theorem Upcoming.closing (hm : AtMargin cs) (h : Upcoming cs r ws) (hend : r.rest = []) :
    ws = List.replicate r.indents.length dedentWord := by
  cases h with
  | ended => rfl
  | @line s _ hat hawaits =>
    have hbracketed := (Scan.reads_before hm [] hat.reads).1
    have hdepth := (hbracketed.ended (hat.rest.trans hend)).resolve_left (by simp [hat.inside])
    have hpending : s.pending = false := by simp [Scan.pending, Nat.ne_of_gt hdepth]
    rw [hawaits.ended (hat.rest.trans hend) hpending, hat.indents]

/-! ### All steps -/

/-- Of these words, those of some kinds can be converted and are legal one after another. -/
def Guided (legal : Legality) (k : TokenKind → Prop) : List Terminal → List Word → Prop
  | _, [] => True
  | read, w :: ws => (k w.kind → w.Legible ∧ legal read w.terminal = true) ∧
      Guided legal k (read ++ [w.terminal]) ws

theorem guided_append {k : TokenKind → Prop} {front back : List Word} {before : List Terminal} :
    Guided legal k before (front ++ back) ↔
      Guided legal k before front ∧ Guided legal k (before ++ front.map Word.terminal) back := by
  induction front generalizing before with
  | nil => simp [Guided]
  | cons w front ih => simp [Guided, ih, and_assoc]

/-- What is read stays. -/
theorem tokens_grow (h : r.tokens legal fuel read = some all) : ∃ more, all = read ++ more := by
  induction fuel generalizing r read with
  | zero => cases h
  | succ fuel ih =>
    have hlonger {r' : Scanner} {new : List Token}
        (h : r'.tokens legal fuel (read ++ new) = some all) : ∃ more, all = read ++ more := by
      obtain ⟨more, rfl⟩ := ih h
      exact ⟨new ++ more, List.append_assoc ..⟩
    cases hrest : r.rest with
    | nil =>
      rw [tokens_nil hrest] at h
      cases h
      exact ⟨_, rfl⟩
    | cons c rest =>
      rw [tokens_cons hrest] at h
      split_ifs at h
      · obtain ⟨p, -, hp⟩ := Option.bind_eq_some_iff.mp h
        exact hlonger hp
      · exact ih h
      · exact ih h
      · obtain ⟨p, -, hp⟩ := Option.bind_eq_some_iff.mp h
        exact hlonger hp

/-- The words of a layout begin with some words, or these go on from them. -/
theorem layout_front {k : TokenKind → Prop} (h : new.map Token.plain ++ ws = front ++ back)
    (hguided : Guided legal k (read.map Token.terminal) front) :
    (∃ front', front = new.map Token.plain ++ front' ∧ ws = front' ++ back ∧
      Guided legal k ((read ++ new).map Token.terminal) front') ∨
    ∃ more, new.map Token.plain = front ++ more := by
  rcases List.append_eq_append_iff.mp h with ⟨front', rfl, rfl⟩ | ⟨more, hnew, -⟩
  · refine .inl ⟨front', rfl, rfl, ?_⟩
    have hnew : (new.map Token.plain).map Word.terminal = new.map Token.terminal := by
      simp [Token.plain_terminal]
    rw [guided_append, hnew] at hguided
    rw [List.map_append]
    exact hguided.2
  · exact .inr ⟨more, hnew⟩

/-- Words that are legal, but for delimiters perhaps, are found whenever the scanner comes to an
end. -/
theorem tokens_front (hm : AtMargin cs) (hin : Undropped cs) (h : Upcoming cs r (front ++ back))
    (hguided : Guided legal (fun k => k.OfLine ∧ k ≠ .delimiter) (read.map Token.terminal) front)
    (htokens : r.tokens legal fuel read = some all) :
    ∃ more, all.map Token.plain = read.map Token.plain ++ front ++ more := by
  induction fuel generalizing r read front with
  | zero => cases htokens
  | succ fuel ih =>
    by_cases hend : r.rest = []
    · have hws := h.closing hm hend
      rw [tokens_nil hend] at htokens
      cases htokens
      refine ⟨back, ?_⟩
      rw [List.append_assoc, hws, List.map_append, List.map_map]
      congr 1
      exact List.map_const' ..
    have hsteps := upcoming_steps hm hin h hend
    generalize hws : front ++ back = ws at hsteps
    cases hsteps with
    | @layout r' new ws hlayout hlen hahead hstep =>
      rw [hstep] at htokens
      rcases layout_front hws.symm hguided with ⟨front', rfl, rfl, hguided'⟩ | ⟨more, hmore⟩
      · obtain ⟨more, hmore⟩ := ih hahead hguided' htokens
        refine ⟨more, ?_⟩
        rw [hmore, List.map_append]
        simp
      · obtain ⟨rest, rfl⟩ := tokens_grow htokens
        refine ⟨more ++ rest.map Token.plain, ?_⟩
        rw [List.map_append, List.map_append, hmore]
        simp
    | @word r' t ws hline hlen hahead hstep hmark =>
      cases front with
      | nil =>
        obtain ⟨more, rfl⟩ := tokens_grow htokens
        exact ⟨more.map Token.plain, by simp⟩
      | cons w front =>
        obtain ⟨rfl, rfl⟩ := List.cons.inj hws
        obtain ⟨hword, hguided⟩ := hguided
        rw [Token.plain_kind, Token.plain_terminal] at hword
        rw [Token.plain_terminal] at hguided
        have hnext : r'.tokens legal fuel (read ++ [t]) = some all := by
          by_cases hd : t.kind = .delimiter
          · rcases hmark legal fuel read hd with hstep | hnone
            · exact hstep.symm.trans htokens
            · cases hnone.symm.trans htokens
          · obtain ⟨hl, hlegal⟩ := hword ⟨hline, hd⟩
            exact (hstep legal fuel read hl hlegal).symm.trans htokens
        obtain ⟨more, hmore⟩ := ih hahead (by simpa using hguided) hnext
        exact ⟨more, by simpa using hmore⟩

/-- Words that are all legal are found, and no more. -/
theorem tokens_all (hm : AtMargin cs) (hin : Undropped cs) (h : Upcoming cs r ws)
    (hguided : Guided legal TokenKind.OfLine (read.map Token.terminal) ws)
    (hf : r.rest.length < fuel) : ∃ all, r.tokens legal fuel read = some all ∧
      all.map Token.plain = read.map Token.plain ++ ws := by
  induction fuel generalizing r read ws with
  | zero => exact absurd hf (Nat.not_lt_zero _)
  | succ fuel ih =>
    by_cases hend : r.rest = []
    · refine ⟨_, tokens_nil hend, ?_⟩
      rw [h.closing hm hend, List.map_append, List.map_map]
      congr 1
      exact List.map_const' ..
    cases upcoming_steps hm hin h hend with
    | @layout r' new ws hlayout hlen hahead hstep =>
      have hnew : (new.map Token.plain).map Word.terminal = new.map Token.terminal := by
        simp [Token.plain_terminal]
      rw [guided_append, hnew, ← List.map_append] at hguided
      obtain ⟨all, hall, hplain⟩ := ih hahead hguided.2 (by omega)
      refine ⟨all, (hstep legal fuel read).trans hall, ?_⟩
      rw [hplain, List.map_append, List.append_assoc]
    | @word r' t ws hline hlen hahead hstep hmark =>
      obtain ⟨hword, hguided⟩ := hguided
      rw [Token.plain_kind, Token.plain_terminal] at hword
      rw [Token.plain_terminal] at hguided
      obtain ⟨hl, hlegal⟩ := hword hline
      have hguided' : Guided legal TokenKind.OfLine ((read ++ [t]).map Token.terminal) ws := by
        simpa using hguided
      obtain ⟨all, hall, hplain⟩ := ih hahead hguided' (by omega)
      refine ⟨all, (hstep legal fuel read hl hlegal).trans hall, ?_⟩
      rw [hplain]
      simp

/-! ### The start of a text -/

/-- If the first line has no content, its blanks are passed over, and then its end is next. -/
theorem start_reaches (hcs : cs = lead ++ c :: rest) (hlead : IsIndentation lead)
    (hstarts : startsLineEnd (c :: rest) = true) : ∃ front text fuel, cs = front ++ text ∧
      startsLineEnd text = true ∧ (front = lead ∨ front = lead ++ ['\r'] ∧ text.head? = some '\n') ∧
      text.length ≤ fuel ∧ ∀ legal, (Scanner.start cs).tokens legal (cs.length + 1) [] =
        ((Scanner.start cs).skip front).tokens legal (fuel + 1) [] := by
  cases lead with
  | nil =>
    obtain rfl : cs = c :: rest := hcs
    exact ⟨[], _, _, rfl, hstarts, .inl rfl, Nat.le_refl _, fun _ => rfl⟩
  | cons d lead =>
    obtain ⟨fuel, hlen⟩ : ∃ fuel, cs.length = fuel + 1 := ⟨_, by rw [hcs]; rfl⟩
    have hspace := Scan.indentation_space hlead
    have hd : startsLineEnd cs = false := by
      rw [hcs, List.cons_append, ← Bool.not_eq_true, startsLineEnd_cons]
      have hd := hlead d List.mem_cons_self
      rintro (rfl | rfl | ⟨rfl, -⟩) <;> cases hd
    have hscan (legal : Legality) : (Scanner.start cs).tokens legal (cs.length + 1) [] =
        ((Scanner.start cs).skip (cs.takeWhile isSpace)).tokens legal (fuel + 1) [] := by
      rw [hlen, tokens_cons (show (Scanner.start cs).rest = d :: (lead ++ c :: rest) from hcs)]
      change (if startsLineEnd cs = true then _ else if _ then
        ((Scanner.start cs).skip (cs.takeWhile isSpace)).tokens legal (fuel + 1) [] else _) = _
      rw [hd, if_neg Bool.false_ne_true,
        if_pos ((isSpace_eq d).trans (hspace d List.mem_cons_self))]
    have htake {front text : List Char} (hsplit : cs = front ++ text) (hpos : front ≠ [])
        (hfront : ∀ b ∈ front, Lexer.isSpace b = true)
        (htext : ∀ b ∈ text.head?, Lexer.isSpace b = false) :
        cs.takeWhile isSpace = front ∧ text.length ≤ fuel := by
      have hshort := congrArg List.length hsplit
      rw [List.length_append, hlen] at hshort
      have hpos := List.length_pos_iff.mpr hpos
      refine ⟨?_, by omega⟩
      rw [hsplit]
      exact (takeWhile_all (fun b hb => (isSpace_eq b).trans (hfront b hb))
        fun b hb => (isSpace_eq b).trans (htext b hb)).1
    by_cases hreturn : c = '\r'
    · subst hreturn
      have hnewline : rest.head? = some '\n' := by
        simpa using (startsLineEnd_cons _ _).mp hstarts
      obtain ⟨tail, rfl⟩ := List.head?_eq_some_iff.mp hnewline
      have hsplit : cs = (d :: lead ++ ['\r']) ++ '\n' :: tail := by simp [hcs]
      obtain ⟨htaken, hshort⟩ := htake hsplit (by simp) (List.forall_mem_append.mpr
        ⟨hspace, List.forall_mem_singleton.mpr rfl⟩) (by simp; rfl)
      refine ⟨_, _, fuel, hsplit, rfl, .inr ⟨rfl, rfl⟩, hshort, fun legal => ?_⟩
      rw [hscan, htaken]
    · obtain ⟨htaken, hshort⟩ := htake hcs (by simp) hspace (by
        rintro b hb
        obtain rfl : c = b := Option.some.inj hb
        rcases (startsLineEnd_cons _ _).mp hstarts with rfl | rfl | ⟨rfl, -⟩
        · rfl
        · rfl
        · exact absurd rfl hreturn)
      refine ⟨_, _, fuel, hcs, hstarts, .inl rfl, hshort, fun legal => ?_⟩
      rw [hscan, htaken]

/-- What the scanner finds first: perhaps the end of a line without content, and then the words of
the lexer. -/
structure Beginning (cs : List Char) (ws : List Word) (before new : List Token) (r : Scanner)
    (us : List Word) (fuel : Nat) : Prop where
  opening : before = [] ∨ ∃ line, before = [line] ∧ line.kind = .newline
  words : ws = new.map Token.plain ++ us
  ahead : Upcoming cs r us
  enough : r.rest.length < fuel
  tokens : ∀ legal, (Scanner.start cs).tokens legal (cs.length + 1) [] =
    r.tokens legal fuel (before ++ new)

/-- If the first line has no content, its end is found first. -/
theorem start_lineEnd (hm : AtMargin cs) (hin : Undropped cs) (hcs : cs = lead ++ c :: rest)
    (hlead : IsIndentation lead) (hstarts : startsLineEnd (c :: rest) = true)
    (hawaits : (Scan.start cs).Awaits ws) : ∃ before new r us fuel,
      Beginning cs ws before new r us fuel := by
  obtain ⟨front, text, fuel, hsplit, hstarts, hfront, hfuel, htokens⟩ :=
    start_reaches hcs hlead hstarts
  have hskip : ((Scanner.start cs).skip front).rest = text := by
    change cs.drop front.length = _
    rw [hsplit, List.drop_left]
  obtain ⟨comment, blanks, lead', after, hbreak, htaken⟩ :=
    exists_break (atMargin_suffix hm ⟨front, hsplit.symm⟩) hstarts
  obtain ⟨d, more, htext⟩ : ∃ d more, text = d :: more :=
    List.exists_cons_of_ne_nil fun hnil => by
      rw [hnil] at hstarts
      cases hstarts
  -- the lexer passes over the first line and over those after it
  have hfirst : BlankLine (front ++ (comment ++ ['\n'])) := by
    rcases hfront with rfl | ⟨rfl, hnewline⟩
    · exact ⟨_, comment, rfl, hlead, hbreak.commented⟩
    · obtain rfl : comment = [] := by
        rw [hbreak.split] at hnewline
        rcases hbreak.commented with rfl | rfl | ⟨body, rfl, -⟩
        · rfl
        · cases hnewline
        · cases hnewline
      exact ⟨lead, ['\r'], by simp, hlead, .inr (.inl rfl)⟩
  have hcut : cs = (front ++ (comment ++ ['\n'])) ++ (blanks ++ (lead' ++ after)) := by
    rw [hsplit, hbreak.split]
    simp
  have hreads := (Scan.reads_blankLine (s := .start cs) hfirst hcut (.inl rfl)).trans
    (hbreak.blank.reads rfl (.inl rfl))
  obtain ⟨us, rfl, hawaits'⟩ := hawaits.reads hreads [] rfl
  have hlen := congrArg List.length hbreak.append
  rw [List.length_append, List.length_append, List.length_cons] at hlen
  rw [← hskip] at hbreak
  obtain ⟨line, new, r, vs, hend, hline, -, hafter, hwords, hahead⟩ :=
    lineEnd_upcoming hin hbreak rfl hreads rfl rfl rfl rfl hawaits'
  refine ⟨[line], new, r, vs, fuel, .inr ⟨line, rfl, hline⟩, hwords, hahead,
    by rw [hafter]; omega, fun legal => ?_⟩
  rw [htokens, tokens_cons (hskip.trans htext), hskip, if_pos hstarts, htaken, hend]
  rfl

/-- The content of the first line is the first word, unless it is indented. -/
theorem AtLine.first (h : (Scan.start cs).AtLine lead c rest) (hawaits : (Scan.start cs).Awaits ws)
    (hws : ws.head? ≠ some indentWord) : Upcoming cs (.start cs) ws := by
  obtain ⟨s, hnext⟩ := hawaits.next (s := .start cs) (by simp [h.text])
  have hsettles := h.settles
  rw [hnext.2] at hsettles
  generalize hs : Except.ok s = result at hsettles
  cases hsettles with
  | deeper =>
    cases hs
    obtain ⟨us, rfl, -⟩ := hawaits.reads (.single hnext) [_] rfl
    exact absurd rfl hws
  | @back inner outer hsplit _ htop =>
    cases hs
    obtain ⟨rfl, rfl⟩ : inner = [] ∧ outer = [] := List.append_eq_nil_iff.mp hsplit.symm
    obtain ⟨us, rfl, hawaits'⟩ := hawaits.reads (.single hnext) [] rfl
    obtain rfl : lead = [] := by
      by_contra hne
      exact absurd htop (Nat.ne_of_lt (width_pos hne))
    exact .line ⟨.single hnext, rfl, h.text.symm, rfl, rfl⟩ hawaits'
  | refused => cases hs

/-- At the start the scanner has the words of the lexer ahead, unless the first line with content is
indented. -/
theorem exists_beginning (hm : AtMargin cs) (hne : cs ≠ []) (hin : Undropped cs)
    (hawaits : (Scan.start cs).Awaits ws) (hws : ws.head? ≠ some indentWord) :
    ∃ before new r us fuel, Beginning cs ws before new r us fuel := by
  obtain ⟨lead, rest, hcs, hlead, hhead⟩ := exists_lead cs
  cases rest with
  | nil =>
    rw [List.append_nil] at hcs
    exact absurd (newline_mem (hcs ▸ hm) (hcs ▸ hne)) hlead.oneLine
  | cons c more =>
    by_cases hstarts : startsLineEnd (c :: more) = true
    · exact start_lineEnd hm hin hcs hlead hstarts hawaits
    · have hgoes : GoesOn c more := ⟨hhead c rfl, by simpa using hstarts⟩
      have hcontent := hgoes.content hin .refl rfl hcs hlead
      have hahead := AtLine.first ⟨rfl, hcs, hlead, hcontent⟩ hawaits hws
      exact ⟨[], [], .start cs, ws, cs.length + 1, .inl rfl, rfl, hahead, Nat.lt_succ_self _,
        fun _ => rfl⟩

variable {before : List Token} {us : List Word}

/-- Words that are legal, but for delimiters perhaps, are found first in any reading of the text. -/
theorem Beginning.begins (hm : AtMargin cs) (hin : Undropped cs)
    (h : Beginning cs (front ++ back) before new r us fuel)
    (hguided : Guided legal (fun k => k.OfLine ∧ k ≠ .delimiter) (before.map Token.terminal) front)
    (hall : (Scanner.start cs).tokens legal (cs.length + 1) [] = some all) :
    ∃ more, all.map Token.plain = before.map Token.plain ++ front ++ more := by
  rw [h.tokens] at hall
  rcases layout_front h.words.symm hguided with ⟨front', rfl, rfl, hguided'⟩ | ⟨more, hmore⟩
  · obtain ⟨more, hmore⟩ := tokens_front hm hin h.ahead hguided' hall
    exact ⟨more, by rw [hmore]; simp⟩
  · obtain ⟨rest, rfl⟩ := tokens_grow hall
    refine ⟨more ++ rest.map Token.plain, ?_⟩
    rw [List.map_append, List.map_append, hmore]
    simp

/-- Where all words are legal the text can be read, and has these words. -/
theorem Beginning.reads (hm : AtMargin cs) (hin : Undropped cs)
    (h : Beginning cs ws before new r us fuel)
    (hguided : Guided legal TokenKind.OfLine (before.map Token.terminal) ws) :
    ∃ all, (Scanner.start cs).tokens legal (cs.length + 1) [] = some all ∧
      all.map Token.plain = before.map Token.plain ++ ws := by
  obtain rfl := h.words
  have hnew : (new.map Token.plain).map Word.terminal = new.map Token.terminal := by
    simp [Token.plain_terminal]
  rw [guided_append, hnew, ← List.map_append] at hguided
  obtain ⟨all, hall, hplain⟩ := tokens_all hm hin h.ahead hguided.2 h.enough
  refine ⟨all, (h.tokens legal).trans hall, ?_⟩
  rw [hplain]
  simp

end Reference

end Offside
