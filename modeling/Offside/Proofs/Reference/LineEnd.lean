import Offside.Proofs.Lexer.Blank
import Offside.Reference

/-!
Line ends of the reference grammar. One of them is taken with all that stands before the next line
with content: a comment or a carriage return, the lines without content, and the indentation of that
line. The lexer reads the same text in parts.
-/

namespace Offside.Reference

open Lexer

/-- Lines without content, each with its end. -/
def BlankLines (cs : List Char) : Prop :=
  ∃ lines : List (List Char), (∀ line ∈ lines, BlankLine line) ∧ cs = lines.flatten

/-- No line end and no blank of an indentation stands here. -/
structure GoesOn (c : Char) (more : List Char) : Prop where
  indentation : Lexer.isIndentation c = false
  starts : startsLineEnd (c :: more) = false

/-- A text that begins with the end of a line: perhaps a comment or a carriage return, a line break,
lines without content and the indentation of the next line with content, unless there is none. -/
structure Break (cs comment blanks lead after : List Char) : Prop where
  split : cs = comment ++ '\n' :: (blanks ++ (lead ++ after))
  commented : comment = [] ∨ comment = ['\r'] ∨ ∃ body, comment = '#' :: body ∧ OneLine body
  blank : BlankLines blanks
  indented : IsIndentation lead
  continued : lead = [] ∧ after = [] ∨ ∃ c more, after = c :: more ∧ GoesOn c more

variable {cs comment blanks lead after body text : List Char} {c : Char}

theorem BlankLines.cons (h : BlankLine text) (hs : BlankLines blanks) :
    BlankLines (text ++ blanks) := by
  obtain ⟨lines, hlines, rfl⟩ := hs
  exact ⟨text :: lines, List.forall_mem_cons.mpr ⟨h, hlines⟩, rfl⟩

/-- After a line break, lines without content leave the place behind a line break. -/
theorem BlankLines.ended (h : BlankLines blanks) : ∃ front, '\n' :: blanks = front ++ ['\n'] := by
  obtain ⟨lines, hlines, rfl⟩ := h
  rcases List.eq_nil_or_concat' lines with rfl | ⟨front, line, rfl⟩
  · exact ⟨[], rfl⟩
  · obtain ⟨line, rfl, -⟩ := (hlines line (by simp)).newlines
    exact ⟨'\n' :: (front.flatten ++ line), by simp⟩

/-! ### What a line end takes -/

theorem startsLineEnd_cons (c : Char) (rest : List Char) : startsLineEnd (c :: rest) = true ↔
    c = '\n' ∨ c = '#' ∨ c = '\r' ∧ rest.head? = some '\n' := by
  unfold startsLineEnd
  split
  · next heq =>
    obtain ⟨rfl, rfl⟩ := List.cons.inj heq
    simp
  · next hreturn heq =>
    obtain ⟨rfl, rfl⟩ := List.cons.inj heq
    have hnot : ¬ (c = '\r' ∧ rest.head? = some '\n') := by
      rintro ⟨rfl, hhead⟩
      obtain ⟨tail, rfl⟩ := List.head?_eq_some_iff.mp hhead
      exact hreturn tail rfl rfl
    simp [hnot]
  · next heq => cases heq

theorem lineEndText_cons {rest : List Char} (hc : ¬ (c = '\r' ∧ rest.head? = some '\n'))
    (inComment inBlanks : Bool) :
    lineEndText inComment inBlanks (c :: rest) =
      if c = '\n' then c :: lineEndText false true rest
      else if inComment || c == '#' then c :: lineEndText true false rest
      else if inBlanks && isIndentation c then c :: lineEndText false true rest
      else [] := by
  rw [lineEndText.eq_def]
  split
  · next heq => cases heq
  · next heq =>
    obtain ⟨rfl, rfl⟩ := List.cons.inj heq
    exact absurd ⟨rfl, rfl⟩ hc
  · next heq =>
    cases heq
    rfl

theorem lineEndText_plain (hc : c ≠ '\r') (inComment inBlanks : Bool) (rest : List Char) :
    lineEndText inComment inBlanks (c :: rest) =
      if c = '\n' then c :: lineEndText false true rest
      else if inComment || c == '#' then c :: lineEndText true false rest
      else if inBlanks && isIndentation c then c :: lineEndText false true rest
      else [] := lineEndText_cons (fun h => hc h.1) inComment inBlanks

theorem lineEndText_comment (h : OneLine body) (rest : List Char) :
    lineEndText true false (body ++ '\n' :: rest) =
      body ++ '\n' :: lineEndText false true rest := by
  induction body with
  | nil => rfl
  | cons c body ih =>
    rw [OneLine, List.mem_cons, not_or] at h
    by_cases hreturn : c = '\r' ∧ (body ++ '\n' :: rest).head? = some '\n'
    · -- the comment ends in the carriage return
      obtain ⟨rfl, hhead⟩ := hreturn
      obtain rfl : body = [] := by
        cases body with
        | nil => rfl
        | cons d body =>
          obtain rfl : d = '\n' := Option.some.inj hhead
          exact absurd List.mem_cons_self h.2
      rfl
    · rw [List.cons_append, lineEndText_cons hreturn, if_neg (Ne.symm h.1), Bool.true_or,
        if_pos rfl, ih h.2, List.cons_append]

theorem lineEndText_lead (h : IsIndentation lead) (rest : List Char) :
    lineEndText false true (lead ++ rest) = lead ++ lineEndText false true rest := by
  induction lead with
  | nil => rfl
  | cons c lead ih =>
    obtain ⟨hc, hlead⟩ := List.forall_mem_cons.mp h
    have hplain : c ≠ '\r' ∧ c ≠ '\n' ∧ c ≠ '#' := by
      refine ⟨?_, ?_, ?_⟩ <;> rintro rfl <;> cases hc
    have hindentation : Reference.isIndentation c = true := hc
    rw [List.cons_append, lineEndText_plain hplain.1, if_neg hplain.2.1, Bool.false_or,
      if_neg (by simpa using hplain.2.2), hindentation, Bool.true_and, if_pos rfl, ih hlead,
      List.cons_append]

/-- Behind a line break: lines without content, and the indentation of the next one. -/
theorem exists_blanks (hm : AtMargin text) :
    ∃ blanks lead after, text = blanks ++ (lead ++ after) ∧ BlankLines blanks ∧
      IsIndentation lead ∧ lineEndText false true text = blanks ++ lead ∧
      (lead = [] ∧ after = [] ∨ ∃ c more, after = c :: more ∧ GoesOn c more) := by
  induction hn : text.length using Nat.strong_induction_on generalizing text with
  | _ n ih =>
    have hlonger (line tail : List Char) (hline : BlankLine line) (htext : text = line ++ tail)
        (htaken : lineEndText false true text = line ++ lineEndText false true tail) :
        ∃ blanks lead after, text = blanks ++ (lead ++ after) ∧ BlankLines blanks ∧
          IsIndentation lead ∧ lineEndText false true text = blanks ++ lead ∧
          (lead = [] ∧ after = [] ∨ ∃ c more, after = c :: more ∧ GoesOn c more) := by
      have hlen : tail.length < n := by
        obtain ⟨front, rfl, -⟩ := hline.newlines
        rw [← hn, htext, List.length_append, List.length_append, List.length_singleton]
        omega
      have hsuffix : tail <:+ text := ⟨line, htext.symm⟩
      obtain ⟨blanks, lead, after, htail, hblanks, hlead, htaken', hafter⟩ :=
        ih _ hlen (atMargin_suffix hm hsuffix) rfl
      refine ⟨line ++ blanks, lead, after, ?_, hblanks.cons hline, hlead, ?_, hafter⟩
      · rw [htext, htail, List.append_assoc]
      · rw [htaken, htaken', List.append_assoc]
    obtain ⟨lead, rest, htext, hlead, hhead⟩ := exists_lead text
    have htaken : lineEndText false true text = lead ++ lineEndText false true rest := by
      rw [htext, lineEndText_lead hlead]
    cases rest with
    | nil =>
      rw [List.append_nil] at htext
      obtain rfl : lead = [] := by
        by_contra hne
        exact hlead.oneLine (newline_mem (htext ▸ hm) hne)
      exact ⟨[], [], [], htext, ⟨[], List.forall_mem_nil _, rfl⟩, hlead, htaken, .inl ⟨rfl, rfl⟩⟩
    | cons c more =>
      by_cases hline : c = '\n'
      · subst hline
        refine hlonger (lead ++ ['\n']) more ⟨lead, [], by simp, hlead, .inl rfl⟩
          (by simp [htext]) ?_
        rw [htaken, lineEndText_plain (by decide), if_pos rfl, List.append_assoc]
        rfl
      by_cases hcomment : c = '#'
      · subst hcomment
        obtain ⟨body, tail, rfl, hbody, htail⟩ := exists_line more
        have hm' : AtMargin (body ++ tail) :=
          atMargin_suffix hm ⟨lead ++ ['#'], by simp [htext]⟩
        cases tail with
        | nil =>
          -- the text would end in a comment
          rw [List.append_nil] at hm' htext
          have hbad : AtMargin ('#' :: body) := atMargin_suffix hm ⟨lead, htext.symm⟩
          have hmem := newline_mem hbad (List.cons_ne_nil _ _)
          exact absurd hmem (OneLine.cons (by decide) hbody)
        | cons d tail =>
          obtain rfl : d = '\n' := htail d rfl
          refine hlonger (lead ++ ('#' :: body ++ ['\n'])) tail
            ⟨lead, '#' :: body, by simp, hlead, .inr (.inr ⟨body, rfl, hbody⟩)⟩
            (by simp [htext]) ?_
          rw [htaken, lineEndText_plain (by decide), if_neg (by decide), beq_self_eq_true,
            Bool.or_true, if_pos rfl, lineEndText_comment hbody]
          simp
      by_cases hreturn : c = '\r' ∧ more.head? = some '\n'
      · obtain ⟨rfl, hnewline⟩ := hreturn
        obtain ⟨tail, rfl⟩ := List.head?_eq_some_iff.mp hnewline
        refine hlonger (lead ++ ['\r', '\n']) tail ⟨lead, ['\r'], by simp, hlead, .inr (.inl rfl)⟩
          (by simp [htext]) ?_
        rw [htaken, List.append_assoc]
        rfl
      · have hstarts : startsLineEnd (c :: more) = false := by
          rw [← Bool.not_eq_true, startsLineEnd_cons]
          simp [hline, hcomment, hreturn]
        have hindentation : Reference.isIndentation c = false := hhead c rfl
        refine ⟨[], lead, c :: more, htext, ⟨[], List.forall_mem_nil _, rfl⟩, hlead, ?_,
          .inr ⟨c, more, rfl, hhead c rfl, hstarts⟩⟩
        rw [htaken, lineEndText_cons hreturn, if_neg hline, Bool.false_or,
          if_neg (by simpa using hcomment), hindentation, Bool.and_false,
          if_neg Bool.false_ne_true, List.append_nil, List.nil_append]

/-- What a line end takes, and what is left. -/
theorem Break.append (h : Break cs comment blanks lead after) :
    cs = (comment ++ '\n' :: (blanks ++ lead)) ++ after := by
  rw [h.split]
  simp

/-- What a line end takes is all that stands before the next line with content. -/
theorem exists_break (hm : AtMargin cs) (h : startsLineEnd cs = true) :
    ∃ comment blanks lead after, Break cs comment blanks lead after ∧
      lineEndText false false cs = comment ++ '\n' :: (blanks ++ lead) := by
  have hbehind (comment tail : List Char)
      (hcomment : comment = [] ∨ comment = ['\r'] ∨ ∃ body, comment = '#' :: body ∧ OneLine body)
      (htext : cs = comment ++ '\n' :: tail)
      (htaken : lineEndText false false cs = comment ++ '\n' :: lineEndText false true tail) :
      ∃ comment blanks lead after, Break cs comment blanks lead after ∧
        lineEndText false false cs = comment ++ '\n' :: (blanks ++ lead) := by
    have hsuffix : tail <:+ cs := ⟨comment ++ ['\n'], by simp [htext]⟩
    obtain ⟨blanks, lead, after, htail, hblanks, hlead, htaken', hafter⟩ :=
      exists_blanks (atMargin_suffix hm hsuffix)
    exact ⟨comment, blanks, lead, after, ⟨by rw [htext, htail], hcomment, hblanks, hlead, hafter⟩,
      by rw [htaken, htaken']⟩
  cases cs with
  | nil => cases h
  | cons c rest =>
    rcases (startsLineEnd_cons c rest).mp h with rfl | rfl | ⟨rfl, hnewline⟩
    · exact hbehind [] _ (.inl rfl) rfl rfl
    · obtain ⟨body, tail, rfl, hbody, htail⟩ := exists_line rest
      cases tail with
      | nil =>
        rw [List.append_nil] at hm
        have hmem := newline_mem hm (List.cons_ne_nil _ _)
        exact absurd hmem (OneLine.cons (by decide) hbody)
      | cons d tail =>
        obtain rfl : d = '\n' := htail d rfl
        refine hbehind ('#' :: body) _ (.inr (.inr ⟨body, rfl, hbody⟩)) rfl ?_
        rw [lineEndText_plain (by decide), if_neg (by decide), beq_self_eq_true, Bool.or_true,
          if_pos rfl, lineEndText_comment hbody, List.cons_append]
    · obtain ⟨tail, rfl⟩ := List.head?_eq_some_iff.mp hnewline
      exact hbehind ['\r'] tail (.inr (.inl rfl)) rfl rfl

/-! ### The width of the next line -/

theorem width_reverse (cs : List Char) : width cs.reverse = width cs := by
  unfold width
  exact (List.reverse_perm cs).foldr_eq' (fun c _ d _ n => Nat.add_left_comm
    (if d = '\t' then tabWidth else 1) (if c = '\t' then tabWidth else 1) n) 0

/-- The blanks behind the last line break are the indentation of the next line. -/
theorem Break.lastWidth (h : Break cs comment blanks lead after) :
    lastWidth (comment ++ '\n' :: (blanks ++ lead)) = width lead := by
  obtain ⟨front, hfront⟩ := h.blank.ended
  have hline : ∀ c ∈ lead.reverse, (c != '\n') = true := by
    intro c hc
    have hne : c ≠ '\n' := fun heq => h.indented.oneLine (heq ▸ List.mem_reverse.mp hc)
    simpa using hne
  have hsplit : (comment ++ '\n' :: (blanks ++ lead)).reverse =
      lead.reverse ++ '\n' :: (front.reverse ++ comment.reverse) := by
    rw [← List.cons_append, hfront]
    simp
  rw [Reference.lastWidth, hsplit, (takeWhile_all hline (by simp)).1, width_reverse]

/-! ### Reading it in parts -/

variable {s : Scan}

/-- Lines without content are passed over between two lines and inside brackets. -/
theorem BlankLines.reads (h : BlankLines blanks) (hs : s.rest = blanks ++ text)
    (hin : s.lineStart = true ∨ 0 < s.depth) : Scan.Reads s (s.passOver blanks text) := by
  obtain ⟨lines, hlines, rfl⟩ := h
  induction lines generalizing s with
  | nil =>
    have hsame : s.passOver [] text = s := by
      rw [Scan.passOver, ← show s.rest = text from hs]
      rfl
    rw [List.flatten_nil, hsame]
  | cons line lines ih =>
    obtain ⟨hline, hlines⟩ := List.forall_mem_cons.mp hlines
    rw [List.flatten_cons, List.append_assoc] at hs
    have hreads := (Scan.reads_blankLine hline hs hin).trans
      (ih (s := s.passOver line (lines.flatten ++ text)) hin hlines rfl)
    rwa [Scan.passOver_passOver] at hreads

namespace Break

/-- A comment or a carriage return is passed over up to the line break. -/
theorem reads_comment (h : Break s.rest comment blanks lead after) (hl : s.lineStart = false) :
    Scan.Reads s (s.passOver comment ('\n' :: (blanks ++ (lead ++ after)))) := by
  have hsplit := h.split
  rcases h.commented with rfl | rfl | ⟨body, rfl, hbody⟩
  · have hsame : s.passOver [] ('\n' :: (blanks ++ (lead ++ after))) = s := by
      rw [Scan.passOver, ← show s.rest = '\n' :: (blanks ++ (lead ++ after)) from hsplit]
      rfl
    rw [hsame]
  · exact Scan.reads_blanks hl hsplit (List.forall_mem_singleton.mpr rfl)
  · exact .single (Scan.next_comment hl hsplit hbody (by simp))

/-- Inside brackets all of it is passed over. -/
theorem reads_inside (h : Break s.rest comment blanks lead after) (hl : s.lineStart = false)
    (hd : 0 < s.depth) :
    Scan.Reads s (s.passOver (comment ++ '\n' :: (blanks ++ lead)) after) := by
  let s₁ := s.passOver comment ('\n' :: (blanks ++ (lead ++ after)))
  let s₂ := s₁.passOver ['\n'] (blanks ++ (lead ++ after))
  have hbreak : Scan.Reads s₁ s₂ := .single (Scan.next_newline hl hd rfl)
  have hblank : Scan.Reads s₂ (s₂.passOver blanks (lead ++ after)) := h.blank.reads rfl (.inr hd)
  have hlead := Scan.reads_blanks (s := s₂.passOver blanks (lead ++ after)) hl rfl
    (Scan.indentation_space h.indented)
  have hreads := (((h.reads_comment hl).trans hbreak).trans hblank).trans hlead
  simpa only [s₁, s₂, Scan.passOver_passOver, List.append_assoc, List.cons_append, List.nil_append]
    using hreads

/-- Between lines a NEWLINE is read, and then the next line with content begins, if there is one. -/
theorem reads_newline (h : Break s.rest comment blanks lead after) (hl : s.lineStart = false)
    (hd : s.depth = 0) : ∃ s' p, Scan.Reads s s' ∧ s'.rest = lead ++ after ∧ s'.lineStart = true ∧
      s'.indents = s.indents ∧ s'.depth = 0 ∧ s'.tokens = ⟨.newline, "\n", p⟩ :: s.tokens := by
  let s₁ := s.passOver comment ('\n' :: (blanks ++ (lead ++ after)))
  let s₂ : Scan := { s₁.take .newline ['\n'] (blanks ++ (lead ++ after)) with lineStart := true }
  have hstep : s₁.step = .ok s₂ := by
    rw [step_eq (s := s₁) hl rfl, Scan.stepInLine, if_pos rfl,
      if_pos (show s₁.depth = 0 from hd)]
  have hbreak : Scan.Reads s₁ s₂ := .single ⟨by simp [s₁, Scan.passOver], hstep⟩
  have hblank : Scan.Reads s₂ (s₂.passOver blanks (lead ++ after)) := h.blank.reads rfl (.inl rfl)
  exact ⟨_, s₁.pos, ((h.reads_comment hl).trans hbreak).trans hblank, rfl, rfl, rfl, hd, rfl⟩

end Break

end Offside.Reference
