import Offside.Proofs.Lexer.FormFeed

/-!
Lines without content. Put between two lines, such a line only moves down what comes after it, at
every indentation and inside brackets too. The end of a line put behind the last one changes no
word, unless that line begins with a form feed: this makes it a line with content, though it may
hold no token, and then its end is one.
-/

namespace Offside

/-- The position one line further down, if it stands below the first so many lines. -/
def Position.pushed (k : Nat) (p : Position) : Position := if k < p.line then p.lower 1 else p

def Token.pushed (k : Nat) (t : Token) : Token := { t with pos := t.pos.pushed k }

def LexError.pushed (k : Nat) (e : LexError) : LexError := { e with pos := e.pos.pushed k }

namespace Position

theorem pushed_above {k : Nat} {p : Position} (h : p.line ≤ k) : p.pushed k = p :=
  if_neg (Int.not_lt.mpr h)

theorem pushed_below {k : Nat} {p : Position} (h : k < p.line) : p.pushed k = p.lower 1 :=
  if_pos h

theorem after_line (p : Position) (cs : List Char) :
    (p.after cs).line = p.line + cs.count '\n' := by
  induction cs generalizing p with
  | nil => simp [after]
  | cons c cs ih =>
    change ((p.next c).after cs).line = _
    rw [ih, next]
    by_cases hc : c = '\n'
    · simp [hc]
      omega
    · simp [hc]

end Position

namespace Lexer

/-- What becomes of an answer when a line is put below the first so many. -/
def pushed (k : Nat) : Except LexError (List Token) → Except LexError (List Token)
  | .ok ts => .ok (ts.map (Token.pushed k))
  | .error e => .error (e.pushed k)

/-- Spaces and tabs, perhaps a carriage return or a comment, and the end of the line. -/
def BlankLine (cs : List Char) : Prop :=
  ∃ lead body, cs = lead ++ (body ++ ['\n']) ∧ IsIndentation lead ∧
    (body = [] ∨ body = ['\r'] ∨ ∃ text, body = '#' :: text ∧ OneLine text)

/-- The last line begins with a form feed, apart from its indentation. -/
def FormFed (cs : List Char) : Prop :=
  ∃ front lead more, cs = front ++ (lead ++ '\x0c' :: more) ∧ AtMargin front ∧
    IsIndentation lead ∧ OneLine more

/-- The same words, but for the text of the last NEWLINE. -/
inductive SameWords : List Word → List Word → Prop where
  | same (ws : List Word) : SameWords ws ws
  | ended {front closing : List Word} : (∀ w ∈ closing, w.kind ≠ .newline) →
      SameWords (front ++ ⟨.newline, ""⟩ :: closing) (front ++ ⟨.newline, "\n"⟩ :: closing)

/-- The same words and a NEWLINE before those that close the levels and mark the end. -/
inductive NewlineAdded : List Word → List Word → Prop where
  | added {front closing : List Word} : (∀ w ∈ closing, w.kind = .dedent ∨ w.kind = .stop) →
      NewlineAdded (front ++ closing) (front ++ ⟨.newline, "\n"⟩ :: closing)

variable {cs lead body text rest tail : List Char} {c : Char}

/-- A text is its first line and what follows it. -/
theorem exists_line (text : List Char) : ∃ line tail, text = line ++ tail ∧ OneLine line ∧
    ∀ c ∈ tail.head?, c = '\n' :=
  ⟨text.takeWhile (!isLineEnd ·), text.dropWhile (!isLineEnd ·),
    List.takeWhile_append_dropWhile.symm, Scan.oneLine_takeWhile text,
    Scan.head_dropWhile_line text⟩

/-- A text is its indentation and what follows it. -/
theorem exists_lead (text : List Char) : ∃ lead rest, text = lead ++ rest ∧ IsIndentation lead ∧
    ∀ c ∈ rest.head?, isIndentation c = false := by
  refine ⟨text.takeWhile isIndentation, text.dropWhile isIndentation,
    List.takeWhile_append_dropWhile.symm, fun c hc => List.mem_takeWhile_imp hc, fun c hc => ?_⟩
  have hhead := List.head?_dropWhile_not isIndentation text
  rwa [Option.mem_def.mp hc] at hhead

theorem width_pos (h : lead ≠ []) : 0 < width lead := by
  obtain ⟨c, rest, rfl⟩ := List.exists_cons_of_ne_nil h
  have hone : 0 < if c = '\t' then tabWidth else 1 := by
    split <;> decide
  exact Nat.lt_of_lt_of_le hone (Nat.le_add_right _ _)

theorem oneLine_all (h : OneLine cs) : ∀ c ∈ cs, (!isLineEnd c) = true := by
  intro c hc
  have hne : c ≠ '\n' := fun heq => h (heq ▸ hc)
  simp [isLineEnd, hne]

theorem lineEnd_head (h : ∀ c ∈ tail.head?, c = '\n') :
    ∀ c ∈ tail.head?, (!isLineEnd c) = false := by
  intro c hc
  rw [h c hc]
  rfl

theorem BlankLine.newlines (h : BlankLine cs) : ∃ front, cs = front ++ ['\n'] ∧ OneLine front := by
  obtain ⟨lead, body, rfl, hlead, hbody⟩ := h
  refine ⟨lead ++ body, by simp, hlead.oneLine.append ?_⟩
  rcases hbody with rfl | rfl | ⟨text, rfl, htext⟩
  · exact List.not_mem_nil
  · exact .cons (by decide) List.not_mem_nil
  · exact .cons (by decide) htext

theorem after_blankLine (h : BlankLine cs) (p : Position) : p.after cs = ⟨p.line + 1, 1⟩ := by
  obtain ⟨front, rfl, hfront⟩ := h.newlines
  rw [Position.after_append]
  change Position.next _ '\n' = _
  simp [Position.next, Position.after_line, List.count_eq_zero.mpr hfront]

namespace Scan

variable {s s' : Scan}

/-! ### Where lines are -/

/-- A turn goes down, and makes tokens in the line that it starts in. -/
theorem Turn.lines (h : Turn s s') : s.pos.line ≤ s'.pos.line ∧
    ∀ t ∈ s'.tokens, t ∈ s.tokens ∨ t.pos.line = s.pos.line := by
  have hdown (cs : List Char) : s.pos.line ≤ (s.pos.after cs).line := by
    rw [Position.after_line]
    omega
  have hlead {lead : List Char} (h : IsIndentation lead) :
      (s.pos.after lead).line = s.pos.line := by
    rw [Position.after_line, List.count_eq_zero.mpr h.oneLine, Int.natCast_zero, Int.add_zero]
  cases h with
  | void | space | comment => exact ⟨hdown _, fun t ht => .inl ht⟩
  | newline | word =>
    refine ⟨hdown _, fun t ht => ?_⟩
    rcases List.mem_cons.mp ht with rfl | ht
    · exact .inr rfl
    · exact .inl ht
  | deeper hline _ =>
    refine ⟨hdown _, fun t ht => ?_⟩
    rcases List.mem_cons.mp ht with rfl | ht
    · exact .inr (hlead hline.lead)
    · exact .inl ht
  | back hline _ _ _ =>
    refine ⟨hdown _, fun t ht => ?_⟩
    rcases List.mem_append.mp ht with ht | ht
    · rw [List.eq_of_mem_replicate ht]
      exact .inr (hlead hline.lead)
    · exact .inl ht

theorem Refusal.line {e : LexError} (h : Refusal s e) : e.pos.line = s.pos.line := by
  cases h with
  | dedent hline =>
    change (s.pos.after _).line = _
    rw [Position.after_line, List.count_eq_zero.mpr hline.lead.oneLine, Int.natCast_zero,
      Int.add_zero]
  | unterminated => rfl
  | unknown => rfl

/-- Reading goes down. -/
theorem reads_below {k : Nat} (hs : k < s.pos.line) (ht : ∀ t ∈ s.tokens, k < t.pos.line)
    (h : Reads s s') : k < s'.pos.line ∧ ∀ t ∈ s'.tokens, k < t.pos.line := by
  refine reads_keeps (I := fun s => k < s.pos.line ∧ ∀ t ∈ s.tokens, k < t.pos.line) ⟨hs, ht⟩ h ?_
  rintro a b ⟨hpos, htokens⟩ hturn
  obtain ⟨hdown, hnew⟩ := hturn.lines
  refine ⟨lt_of_lt_of_le hpos hdown, fun t ht => ?_⟩
  rcases hnew t ht with ht | ht
  · exact htokens t ht
  · rwa [ht]

/-- Before the end of a text of whole lines, reading stands in one of them. -/
theorem line_le (hm : AtMargin text) (h : Reads (start text) s) (hne : s.rest ≠ []) :
    s.pos.line ≤ text.count '\n' := by
  obtain ⟨before, hplaced⟩ := reads_placed h
  have hrest : '\n' ∈ s.rest := newline_mem (atMargin_suffix hm (reads_suffix h)) hne
  have hpos : 0 < s.rest.count '\n' := List.count_pos_iff.mpr hrest
  rw [hplaced.pos, Position.after_line, hplaced.whole, List.count_append]
  change (1 : Int) + _ ≤ _
  omega

theorem tokens_above (hm : AtMargin text) (h : Reads (start text) s) :
    ∀ t ∈ s.tokens, t.pos.line ≤ text.count '\n' := by
  induction h with
  | refl => exact List.forall_mem_nil _
  | @tail a b hreads hnext ih =>
    intro t ht
    rcases hnext.turn.lines.2 t ht with ht | ht
    · exact ih t ht
    · rw [ht]
      exact line_le hm hreads hnext.1

/-! ### Passing over a line without content -/

/-- At the start of such a line a step passes over it, with its end if there is one. -/
theorem step_void (hl : s.lineStart = true) (hs : s.rest = lead ++ (body ++ tail))
    (hlead : IsIndentation lead) (hbody : OneLine body) (hhead : ∀ c ∈ body.head?, c = '\r' ∨ c = '#')
    (htail : ∀ c ∈ tail.head?, c = '\n') :
    s.step = .ok (s.passOver (lead ++ (body ++ tail.take 1)) (tail.drop 1)) := by
  have hvoid : ∀ c ∈ (body ++ tail).head?, c = '\r' ∨ c = '\n' ∨ c = '#' := by
    intro c hc
    cases body with
    | nil => exact .inr (.inl (htail c hc))
    | cons d body => exact (hhead c hc).imp_right .inr
  have hstop : ∀ c ∈ (body ++ tail).head?, isIndentation c = false := by
    intro c hc
    rcases hvoid c hc with rfl | rfl | rfl <;> rfl
  obtain ⟨htake, hdrop⟩ := takeWhile_all hlead hstop
  obtain ⟨htake', hdrop'⟩ := takeWhile_all (oneLine_all hbody) (lineEnd_head htail)
  have hskip : (s.passOver lead (body ++ tail)).skipComment = s.passOver (lead ++ body) tail := by
    rw [skipComment, show (s.passOver lead (body ++ tail)).rest = body ++ tail from rfl, htake', hdrop',
      passOver_passOver]
  have hskipLine : (s.passOver lead (body ++ tail)).skipLine =
      s.passOver (lead ++ (body ++ tail.take 1)) (tail.drop 1) := by
    unfold skipLine
    rw [hskip]
    cases tail with
    | nil => simp [passOver]
    | cons c tail => simp [passOver, Position.after]
  rw [step, if_pos hl, stepLineStart, hs, htake, hdrop]
  cases hbt : body ++ tail with
  | nil =>
    obtain ⟨rfl, rfl⟩ := List.append_eq_nil_iff.mp hbt
    simp [passOver]
  | cons c more =>
    rw [hbt] at hvoid
    rw [hbt] at hskipLine
    simpa only [passOver, if_pos (hvoid c rfl), Except.ok.injEq] using hskipLine

/-- Blanks inside a line are passed over. -/
theorem reads_blanks (hl : s.lineStart = false) (hs : s.rest = cs ++ rest)
    (hcs : ∀ c ∈ cs, isSpace c = true) : Reads s (s.passOver cs rest) := by
  induction cs generalizing s with
  | nil =>
    have hsame : s.passOver [] rest = s := by
      rw [passOver, ← show s.rest = rest from hs]
      rfl
    rw [hsame]
  | cons c cs ih =>
    obtain ⟨hc, hcs⟩ := List.forall_mem_cons.mp hcs
    have hne : c ≠ '\n' := by
      rintro rfl
      cases hc
    have hnext : Next s (s.passOver [c] (cs ++ rest)) := by
      refine ⟨by simp [hs], ?_⟩
      rw [step_eq hl hs, stepInLine, if_neg hne, if_pos hc]
      rfl
    refine .head hnext ?_
    have hreads := ih (s := s.passOver [c] (cs ++ rest)) hl rfl hcs
    rwa [passOver_passOver] at hreads

theorem indentation_space (h : IsIndentation lead) : ∀ c ∈ lead, isSpace c = true := by
  intro c hc
  have hmem := h c hc
  unfold isIndentation at hmem
  unfold isSpace
  rw [hmem]
  rfl

theorem next_comment (hl : s.lineStart = false) (hs : s.rest = '#' :: (body ++ rest))
    (hbody : OneLine body) (hrest : ∀ c ∈ rest.head?, c = '\n') :
    Next s (s.passOver ('#' :: body) rest) := by
  have hline : OneLine ('#' :: body) := .cons (by decide) hbody
  obtain ⟨htake, hdrop⟩ := takeWhile_all (oneLine_all hline) (lineEnd_head hrest)
  refine ⟨by simp [hs], ?_⟩
  rw [step_eq hl hs, stepInLine, if_neg (by decide), if_neg (by decide), if_pos rfl, skipComment, hs,
    ← List.cons_append, htake, hdrop]

theorem next_newline (hl : s.lineStart = false) (hd : 0 < s.depth) (hs : s.rest = '\n' :: rest) :
    Next s (s.passOver ['\n'] rest) := by
  refine ⟨by simp [hs], ?_⟩
  rw [step_eq hl hs, stepInLine, if_pos rfl, if_neg (Nat.ne_of_gt hd)]

/-- A line without content is passed over between two lines and inside brackets. -/
theorem reads_blankLine (h : BlankLine cs) (hs : s.rest = cs ++ rest)
    (hin : s.lineStart = true ∨ 0 < s.depth) : Reads s (s.passOver cs rest) := by
  obtain ⟨lead, body, rfl, hlead, hbody⟩ := h
  have hrest : s.rest = lead ++ (body ++ '\n' :: rest) := by simp [hs]
  by_cases hl : s.lineStart = true
  · have hone : OneLine body := by
      rcases hbody with rfl | rfl | ⟨text, rfl, htext⟩
      · exact List.not_mem_nil
      · exact .cons (by decide) List.not_mem_nil
      · exact .cons (by decide) htext
    have hhead : ∀ c ∈ body.head?, c = '\r' ∨ c = '#' := by
      rcases hbody with rfl | rfl | ⟨text, rfl, -⟩ <;> simp
    have hstep := step_void hl hrest hlead hone hhead (by simp)
    exact .single ⟨by simp [hrest], hstep⟩
  · have hl : s.lineStart = false := by simpa using hl
    have hd : 0 < s.depth := hin.resolve_left (by simp [hl])
    have hlast (s : Scan) (hl : s.lineStart = false) (hd : 0 < s.depth)
        (hs : s.rest = '\n' :: rest) : Reads s (s.passOver ['\n'] rest) :=
      .single (next_newline hl hd hs)
    rcases hbody with rfl | rfl | ⟨text, rfl, htext⟩
    · have hreads := (reads_blanks hl hrest (indentation_space hlead)).trans
        (hlast (s.passOver lead ('\n' :: rest)) hl hd rfl)
      rwa [passOver_passOver] at hreads
    · have hspace : ∀ c ∈ lead ++ ['\r'], isSpace c = true :=
        List.forall_mem_append.mpr ⟨indentation_space hlead, List.forall_mem_singleton.mpr rfl⟩
      have hreads := (reads_blanks hl (by simp [hrest]) hspace).trans
        (hlast (s.passOver (lead ++ ['\r']) ('\n' :: rest)) hl hd rfl)
      rwa [passOver_passOver, List.append_assoc] at hreads
    · have hcomment := next_comment (s := s.passOver lead ('#' :: (text ++ '\n' :: rest))) hl rfl htext
        (by simp)
      rw [passOver_passOver] at hcomment
      have hreads := ((reads_blanks hl hrest (indentation_space hlead)).tail hcomment).trans
        (hlast _ hl hd rfl)
      rwa [passOver_passOver, List.append_assoc] at hreads

/-! ### Between two lines -/

/-- The tokens of a text behind others, with and without a line between them. -/
theorem finish_pushed {k : Nat} {tokens : List Token} (habove : ∀ t ∈ tokens, t.pos.line ≤ k)
    (hpos : k < s.pos.line) (hbelow : ∀ t ∈ s.tokens, k < t.pos.line) :
    (s.within ⟨1, [], tokens, []⟩).finish =
      (s.within ⟨0, [], tokens, []⟩).finish.map (Token.pushed k) := by
  have hold : tokens.map (Token.pushed k) = tokens := by
    refine (List.map_congr_left fun t ht => ?_).trans (List.map_id tokens)
    simp [Token.pushed, Position.pushed_above (habove t ht)]
  have hnew : (s.tokens.map (Token.lower 0)).map (Token.pushed k) = s.tokens.map (Token.lower 1) := by
    rw [List.map_map]
    refine List.map_congr_left fun t ht => ?_
    simp [Token.pushed, Token.lower, Position.pushed_below (hbelow t ht)]
  have hend : s.pos.pushed k = s.pos.lower 1 := Position.pushed_below hpos
  have hpending (n : Nat) : (s.within ⟨n, [], tokens, []⟩).pending =
      (s.depth == 0 && ((s.tokens ++ tokens).head?.any (·.kind != .newline))) := by
    unfold pending within
    cases s.tokens <;> simp
  rw [finish_pending, finish_pending, hpending, hpending]
  simp only [List.map_append, closing, within, List.map_reverse, hold, hnew]
  congr 1
  · congr 1
    split <;> simp [Token.pushed, hend]
  · simp [Token.pushed, hend]

/-- Behind whole lines, a line without content moves the answer down. -/
theorem tokenize_behind {first blank second : String} (hm : AtMargin first.toList)
    (hb : BlankLine blank.toList) (hreads : Reads (start first.toList) s) (hend : s.rest = []) :
    tokenize (first ++ blank ++ second) =
      pushed (first.toList.count '\n') (tokenize (first ++ second)) := by
  have hbracketed := (reads_before hm [] hreads).1
  have hpos : s.pos = Position.start.lower (first.toList.count '\n') := by
    obtain ⟨before, hplaced⟩ := reads_placed hreads
    have hwhole := hplaced.whole
    rw [hend, List.append_nil] at hwhole
    rw [hplaced.pos, ← hwhole, after_margin hm]
  let x : Scan := ⟨second.toList, s.pos, s.indents, s.depth, s.lineStart, []⟩
  have htokens : s.tokens.map (Token.lower 0) = s.tokens := List.map_id'' Token.lower_zero s.tokens
  have hafter (more : List Char) :
      Reads (start (first.toList ++ more)) { s with rest := more } := by
    have hwithin := (reads_before hm more hreads).2
    simpa [within, hend, htokens] using hwithin
  have hplain : Reads (start (first ++ second).toList) (x.within ⟨0, [], s.tokens, []⟩) := by
    rw [String.toList_append]
    simpa [within, x] using hafter second.toList
  have hblank : Reads (start (first ++ blank ++ second).toList)
      (x.within ⟨1, [], s.tokens, []⟩) := by
    have hover := reads_blankLine (s := { s with rest := blank.toList ++ second.toList }) hb rfl
      (hbracketed.ended hend)
    rw [String.toList_append, String.toList_append, List.append_assoc]
    refine (hafter _).trans ?_
    simpa [within, x, passOver, after_blankLine hb, hpos, Position.lower, Position.start] using hover
  have habove := tokens_above hm hreads
  have hbelow {z : Scan} (hz : Reads x z) : ((first.toList.count '\n' : Nat) : Int) < z.pos.line ∧
      ∀ t ∈ z.tokens, ((first.toList.count '\n' : Nat) : Int) < t.pos.line := by
    refine reads_below ?_ (List.forall_mem_nil _) hz
    change _ < s.pos.line
    rw [hpos]
    simp [Position.lower, Position.start]
  rcases run_reads (s := x) (Nat.le_refl _) with ⟨z, -, hz, hzend⟩ | ⟨z, e, -, hz, hzne, hfail⟩
  · have hok {k : Nat} {source : String}
        (h : Reads (start source.toList) (x.within ⟨k, [], s.tokens, []⟩)) :
        tokenize source = .ok (z.within ⟨k, [], s.tokens, []⟩).finish :=
      tokenize_ok_iff.mpr ⟨_, h.trans (reads_within rfl rfl hz), by simp [within, hzend], rfl⟩
    rw [hok hplain, hok hblank, finish_pushed habove (hbelow hz).1 (hbelow hz).2]
    rfl
  · have herror {k : Nat} {source : String}
        (h : Reads (start source.toList) (x.within ⟨k, [], s.tokens, []⟩)) :
        tokenize source = .error (e.lower k) := by
      refine tokenize_error_iff.mpr ⟨_, h.trans (reads_within rfl rfl hz), by simp [within, hzne], ?_⟩
      rw [step_within (.inl rfl) (.inl rfl), hfail]
      rfl
    have hline : ((first.toList.count '\n' : Nat) : Int) < e.pos.line := by
      rw [(refusal_of_step hzne hfail).line]
      exact (hbelow hz).1
    rw [herror hplain, herror hblank]
    simp [pushed, LexError.pushed, LexError.lower, Position.pushed_below hline]

end Scan

open Scan

/-- A line without content only moves down what comes after it. -/
theorem tokenize_blankLine {first blank second : String} (hm : AtMargin first.toList)
    (hb : BlankLine blank.toList) : tokenize (first ++ blank ++ second) =
      pushed (first.toList.count '\n') (tokenize (first ++ second)) := by
  rcases run_reads (s := start first.toList) (Nat.le_refl _) with
    ⟨s, -, hreads, hend⟩ | ⟨s, e, -, hreads, hne, hfail⟩
  · exact tokenize_behind hm hb hreads hend
  · -- the reading is given up before the line
    have hrefused (more : String) : tokenize (first ++ more) = .error e := by
      have hcut : Surround.Cut ⟨0, [], [], more.toList⟩ s.rest :=
        .inr (newline_mem (atMargin_suffix hm (reads_suffix hreads)) hne)
      refine tokenize_error_iff.mpr ⟨_, String.toList_append ▸ (reads_before hm more.toList hreads).2,
        by simp [within, hne], ?_⟩
      rw [step_within hcut (.inl rfl), hfail]
      simp [carried]
    have hline : e.pos.line ≤ first.toList.count '\n' := by
      rw [(refusal_of_step hne hfail).line]
      exact line_le hm hreads hne
    rw [String.append_assoc, hrefused, hrefused]
    simp [pushed, LexError.pushed, Position.pushed_above hline]

/-! ### Behind the last line -/

namespace Scan

variable {s s' : Scan}

/-- A line is being read that has given no token, and no bracket is open. -/
structure Quiet (s : Scan) : Prop where
  inside : s.lineStart = false
  depth : s.depth = 0
  tokens : ∀ t ∈ s.tokens.head?, t.kind = .newline

/-- A quiet line at the end of the text begins with a form feed. -/
theorem quiet_formFed (h : Reads (start text) s) (hend : s.rest = []) (hquiet : s.Quiet) :
    FormFed text := by
  have hidle : s.Idle := by
    refine ⟨hquiet.inside, hquiet.depth, fun t ht => ?_⟩
    rw [hquiet.tokens t ht]
    exact id
  obtain ⟨before, hplaced, hidles⟩ := reads_idles h
  obtain ⟨lines, lead, seen, rfl, hmargin, hlead, -, -, hbegins⟩ := hidles hidle
  obtain ⟨blanks, comment, rfl, hblanks, hcomment⟩ := hbegins.feed (by simp [hend])
  refine ⟨lines, lead, blanks ++ comment, ?_, hmargin, hlead, (space_oneLine hblanks).append ?_⟩
  · rw [hplaced.whole, hend, List.append_nil]
  · rcases hcomment with rfl | ⟨body, rfl, hbody⟩
    · exact List.not_mem_nil
    · exact .cons (by decide) hbody

/-- A text is read alike with the end of a line behind it, up to there, or past it where the last
line has no content. -/
theorem reads_appended (h : Reads (start text) s) :
    Reads (start (text ++ ['\n'])) { s with rest := s.rest ++ ['\n'] } ∨
      s.rest = [] ∧ s.lineStart = true ∧
        ∃ p, Reads (start (text ++ ['\n'])) { s with pos := p } := by
  have hwithin (s : Scan) : s.within ⟨0, [], [], ['\n']⟩ = { s with rest := s.rest ++ ['\n'] } := by
    have htokens : s.tokens.map (Token.lower 0) = s.tokens := List.map_id'' Token.lower_zero s.tokens
    simp [within, htokens]
  simp only [← hwithin]
  induction h with
  | refl =>
    left
    rw [hwithin]
    exact .refl
  | @tail a b hreads hnext ih =>
    have ih := ih.resolve_right fun h => hnext.1 h.1
    by_cases hline : '\n' ∈ a.rest
    · exact .inl (ih.tail (next_within hnext (.inr hline) (.inl rfl)))
    have hinside (hl : a.lineStart = false) :
        Next (a.within ⟨0, [], [], ['\n']⟩) (b.within ⟨0, [], [], ['\n']⟩) :=
      next_of_carried hnext (step_inside hl hnext.1 (.inl (by simp)))
    cases hnext.turn with
    | @void taken rest hl hs hvoid =>
      right
      obtain ⟨lead, body, ending, rfl, hlead, hbody, hhead, hend⟩ := hvoid.parts
      obtain ⟨rfl, rfl⟩ : ending = [] ∧ rest = [] :=
        hend.resolve_left fun h => hline (by rw [hs, h]; simp)
      have hrest : (a.within ⟨0, [], [], ['\n']⟩).rest = lead ++ (body ++ ['\n']) := by
        simp [within, hs]
      have hstep := step_void (s := a.within ⟨0, [], [], ['\n']⟩) hl hrest hlead hbody hhead (by simp)
      refine ⟨rfl, hl, a.pos.after (lead ++ (body ++ ['\n'])), ih.tail ⟨by simp [hrest], ?_⟩⟩
      rw [hstep, hwithin]
      rfl
    | deeper hat | back hat =>
      exact .inl (ih.tail (next_of_carried hnext (hat.step_longer rfl)))
    | newline hl | space hl | comment hl | word hl => exact .inl (ih.tail (hinside hl))

theorem closing_words (s : Scan) (p : Position) :
    ({ s with pos := p } : Scan).closing.map Token.word = s.closing.map Token.word := by
  simp [closing, Token.word]

/-- The words of a text do not depend on where it ends. -/
theorem finish_pos (s : Scan) (p : Position) :
    ({ s with pos := p } : Scan).finish.map Token.word = s.finish.map Token.word := by
  have hpending : ({ s with pos := p } : Scan).pending = s.pending := rfl
  rw [finish_pending, finish_pending, hpending, List.map_append, List.map_append, closing_words]
  cases s.pending <;> simp [Token.word]

theorem closing_kinds_words (s : Scan) :
    ∀ w ∈ s.closing.map Token.word, w.kind = .dedent ∨ w.kind = .stop :=
  List.forall_mem_map.mpr fun t ht => s.closing_kinds t ht

/-- The words so far and those that close the levels, without a NEWLINE between them and with one.
-/
structure EndedBy (s : Scan) (ws us : List Word) : Prop where
  plain : ws = s.tokens.reverse.map Token.word ++ s.closing.map Token.word
  ended : us = s.tokens.reverse.map Token.word ++ ⟨.newline, "\n"⟩ :: s.closing.map Token.word

/-- The end of a line that is being read at the end of the text. -/
theorem finish_newline (hl : s.lineStart = false) (hd : s.depth = 0) :
    ∃ z, Next { s with rest := ['\n'] } z ∧ z.rest = [] ∧
      (SameWords (s.finish.map Token.word) (z.finish.map Token.word) ∨
        s.Quiet ∧ s.EndedBy (s.finish.map Token.word) (z.finish.map Token.word)) := by
  let z : Scan := { ({ s with rest := ['\n'] } : Scan).take .newline ['\n'] [] with lineStart := true }
  have hstep : ({ s with rest := ['\n'] } : Scan).step = .ok z := by
    rw [step_eq (s := { s with rest := ['\n'] }) hl rfl, stepInLine, if_pos rfl, if_pos hd]
  have hfinish : z.finish.map Token.word =
      s.tokens.reverse.map Token.word ++ ⟨.newline, "\n"⟩ :: s.closing.map Token.word := by
    have hended : ∀ t ∈ z.tokens.head?, t.kind = .newline := by
      intro t ht
      obtain rfl := Option.some.inj ht
      rfl
    rw [finish_ended hended]
    simp [z, take, passOver, closing, Token.word]
  refine ⟨z, ⟨by simp, hstep⟩, rfl, ?_⟩
  rw [hfinish, finish_pending]
  by_cases hpending : s.pending = true
  · left
    have hclosing : ∀ w ∈ s.closing.map Token.word, w.kind ≠ .newline := by
      intro w hw
      rcases s.closing_kinds_words w hw with h | h <;> rw [h] <;> decide
    have hended : SameWords (s.tokens.reverse.map Token.word ++
        ⟨.newline, ""⟩ :: s.closing.map Token.word) _ := .ended hclosing
    simpa [hpending, Token.word] using hended
  · refine .inr ⟨⟨hl, hd, fun t ht => ?_⟩, by simp [hpending], rfl⟩
    unfold pending at hpending
    rw [Option.mem_def.mp ht] at hpending
    simpa [hd] using hpending

end Scan

/-- The end of a line behind a text: the same words, or a NEWLINE for a line that has given none. -/
theorem tokenize_ended {source : String} {ts : List Token} (h : tokenize source = .ok ts) :
    ∃ us, tokenize (source ++ "\n") = .ok us ∧
      (SameWords (ts.map Token.word) (us.map Token.word) ∨
        ∃ s, Reads (start source.toList) s ∧ s.rest = [] ∧ s.Quiet ∧
          s.EndedBy (ts.map Token.word) (us.map Token.word)) := by
  obtain ⟨s, hreads, hend, rfl⟩ := tokenize_ok_iff.mp h
  have hread {z : Scan} (hz : Reads (start (source.toList ++ ['\n'])) z) (hzend : z.rest = []) :
      tokenize (source ++ "\n") = .ok z.finish := by
    refine tokenize_ok_iff.mpr ⟨z, ?_, hzend, rfl⟩
    rwa [String.toList_append]
  have hsame {p : Position} (hz : Reads (start (source.toList ++ ['\n'])) { s with pos := p }) :
      ∃ us, tokenize (source ++ "\n") = .ok us ∧
        (SameWords (s.finish.map Token.word) (us.map Token.word) ∨
          ∃ s', Reads (start source.toList) s' ∧ s'.rest = [] ∧ s'.Quiet ∧
            s'.EndedBy (s.finish.map Token.word) (us.map Token.word)) :=
    ⟨_, hread hz hend, .inl (finish_pos s p ▸ .same _)⟩
  rcases reads_appended hreads with happended | ⟨-, -, p, hz⟩
  · rw [hend, List.nil_append] at happended
    by_cases hl : s.lineStart = true
    · have hstep := step_void (s := { s with rest := ['\n'] }) hl
        (show ['\n'] = [] ++ ([] ++ ['\n']) from rfl) nofun List.not_mem_nil nofun (by simp)
      have hz := happended.tail ⟨by simp, hstep⟩
      exact hsame (p := s.pos.after ['\n']) (by simpa [passOver, hend] using hz)
    · have hl : s.lineStart = false := by simpa using hl
      rcases Nat.eq_zero_or_pos s.depth with hd | hd
      · obtain ⟨z, hnext, hzend, hwords⟩ := finish_newline hl hd
        exact ⟨_, hread (happended.tail hnext) hzend,
          hwords.imp_right fun h => ⟨s, hreads, hend, h.1, h.2⟩⟩
      · have hz := happended.tail (next_newline hl hd rfl)
        exact hsame (p := s.pos.after ['\n']) (by simpa [passOver, hend] using hz)
  · exact hsame hz

theorem tokenize_newline {source : String} {ts : List Token} (h : tokenize source = .ok ts) :
    ∃ us, tokenize (source ++ "\n") = .ok us ∧
      (SameWords (ts.map Token.word) (us.map Token.word) ∨
        FormFed source.toList ∧ NewlineAdded (ts.map Token.word) (us.map Token.word)) := by
  obtain ⟨us, hus, hwords⟩ := tokenize_ended h
  refine ⟨us, hus, hwords.imp_right ?_⟩
  rintro ⟨s, hreads, hend, hquiet, hended⟩
  refine ⟨quiet_formFed hreads hend hquiet, ?_⟩
  rw [hended.plain, hended.ended]
  exact .added s.closing_kinds_words

/-- A line without content put below whole lines only moves down what comes after it. The end of a
line put behind a text that is read changes no word but for the text of the last NEWLINE, unless the
last line begins with a form feed: then it may add a NEWLINE. -/
theorem blank_lines_invisible (first blank second source : String) :
    (AtMargin first.toList → BlankLine blank.toList → tokenize (first ++ blank ++ second) =
      pushed (first.toList.count '\n') (tokenize (first ++ second))) ∧
    ∀ ts : List Token, tokenize source = .ok ts →
      ∃ us, tokenize (source ++ "\n") = .ok us ∧
        (SameWords (ts.map Token.word) (us.map Token.word) ∨
          FormFed source.toList ∧ NewlineAdded (ts.map Token.word) (us.map Token.word)) :=
  ⟨fun hm hb => tokenize_blankLine hm hb, fun _ h => tokenize_newline h⟩

/-- A comment inside brackets, and the end of a line behind the last one. -/
theorem comment_in_brackets_invisible :
    BlankLine "\t# b\n".toList ∧
      tokenize "f(\n\t# b\na" = .ok [⟨.identifier, "f", ⟨1, 1⟩⟩, ⟨.delimiter, "(", ⟨1, 2⟩⟩,
        ⟨.identifier, "a", ⟨3, 1⟩⟩, ⟨.stop, "", ⟨3, 2⟩⟩] ∧
      ∃ us, tokenize "f(\na\n" = .ok us ∧
        (SameWords [⟨.identifier, "f"⟩, ⟨.delimiter, "("⟩, ⟨.identifier, "a"⟩, ⟨.stop, ""⟩]
          (us.map Token.word) ∨ FormFed "f(\na".toList ∧ NewlineAdded
            [⟨.identifier, "f"⟩, ⟨.delimiter, "("⟩, ⟨.identifier, "a"⟩, ⟨.stop, ""⟩]
            (us.map Token.word)) := by
  have hm : AtMargin "f(\n".toList := by
    intro c hc
    obtain rfl := Option.some.inj hc
    rfl
  have hb : BlankLine "\t# b\n".toList :=
    ⟨['\t'], ['#', ' ', 'b'], rfl, List.forall_mem_singleton.mpr rfl,
      .inr (.inr ⟨[' ', 'b'], rfl, by simp [OneLine]⟩)⟩
  have hplain : tokenize "f(\na" = .ok [⟨.identifier, "f", ⟨1, 1⟩⟩, ⟨.delimiter, "(", ⟨1, 2⟩⟩,
      ⟨.identifier, "a", ⟨2, 1⟩⟩, ⟨.stop, "", ⟨2, 2⟩⟩] := by
    decide +kernel
  obtain ⟨hpushed, hended⟩ := blank_lines_invisible "f(\n" "\t# b\n" "a" "f(\na"
  have hcomment := hpushed hm hb
  rw [show "f(\n" ++ "a" = "f(\na" from rfl, hplain] at hcomment
  exact ⟨hb, hcomment, hended _ hplain⟩

/-- A form feed makes a line that has an end count, and one that has none not. -/
theorem form_feed_line_shows :
    (tokenize "\x0c").map (List.map Token.word) = .ok [⟨.stop, ""⟩] ∧
      (tokenize "\x0c\n").map (List.map Token.word) = .ok [⟨.newline, "\n"⟩, ⟨.stop, ""⟩] := by
  decide +kernel

end Lexer

end Offside
