import Offside.Proofs.Lexer.Step

/-!
Layouts: trees of lines and indented blocks. A text of lines, each indented by a multiple of some
width, is read as the words of its lines with an INDENT or DEDENTs wherever the level changes, so
that in the text of a layout they stand around every block, however many blocks end at once.
-/

namespace Offside.Lexer

/-- A piece of a line: a word, or a blank between words. -/
inductive Piece where
  | word (w : Word)
  | blank

def Piece.text : Piece → List Char
  | word w => w.lexeme.toList
  | blank => [' ']

def spell (ps : List Piece) : List Char := ps.flatMap Piece.text

def wordsOf : List Piece → List Word
  | [] => []
  | .word w :: ps => w :: wordsOf ps
  | .blank :: ps => wordsOf ps

/-- No word of the pieces runs into what follows it. -/
def Spaced : List Piece → List Char → Prop
  | [], _ => True
  | .word w :: ps, rest => Lexable w ∧ Ends w (spell ps ++ rest) ∧ Spaced ps rest
  | .blank :: ps, rest => Spaced ps rest

theorem spell_append (ps qs : List Piece) : spell (ps ++ qs) = spell ps ++ spell qs := by
  simp [spell]

theorem wordsOf_append (ps qs : List Piece) : wordsOf (ps ++ qs) = wordsOf ps ++ wordsOf qs := by
  induction ps with
  | nil => rfl
  | cons p ps ih => cases p <;> simp [wordsOf, ih]

theorem spaced_append {ps qs : List Piece} {rest : List Char} :
    Spaced (ps ++ qs) rest ↔ Spaced ps (spell qs ++ rest) ∧ Spaced qs rest := by
  induction ps with
  | nil => simp [Spaced]
  | cons p ps ih =>
    cases p with
    | blank => exact ih
    | word w => simp only [List.cons_append, Spaced, ih, spell_append, List.append_assoc, and_assoc]

theorem reaches_pieces {ps : List Piece} {rest : List Char} (h : Spaced ps rest)
    (indents : List Nat) (depth : Nat) (ws : List Word) :
    Reaches ⟨spell ps ++ rest, indents, depth, false, ws⟩
      ⟨rest, indents, (wordsOf ps).foldl wordDepth depth, false, ws ++ wordsOf ps⟩ := by
  induction ps generalizing depth ws with
  | nil =>
    rw [wordsOf, List.append_nil]
    exact reaches_refl _
  | cons p ps ih =>
    cases p with
    | blank => exact reaches_trans reaches_blank (ih h depth ws)
    | word w =>
      obtain ⟨hw, he, hps⟩ := h
      have hstep : Reaches ⟨w.lexeme.toList ++ (spell ps ++ rest), indents, depth, false, ws⟩ _ :=
        reaches_word hw he
      have hrest := ih hps (wordDepth depth w) (ws ++ [w])
      rw [List.append_assoc] at hrest
      rw [← List.append_assoc] at hstep
      exact reaches_trans hstep hrest

/-- The pieces of a line that starts with a word, keeps its words apart and closes its
brackets. -/
structure Clean (ps : List Piece) : Prop where
  starts : ∃ w qs, ps = .word w :: qs
  spaced : ∀ rest, Spaced ps ('\n' :: rest)
  balanced : (wordsOf ps).foldl wordDepth 0 = 0

structure Line where
  level : Nat
  pieces : List Piece

def Line.text (width : Nat) (l : Line) : List Char :=
  List.replicate (width * l.level) ' ' ++ (spell l.pieces ++ ['\n'])

/-- The widths that are open at a level. -/
def levels (width : Nat) : Nat → List Nat
  | 0 => []
  | k + 1 => width * (k + 1) :: levels width k

def indentWord : Word := ⟨.indent, ""⟩

def dedentWord : Word := ⟨.dedent, ""⟩

def newlineWord : Word := ⟨.newline, "\n"⟩

def shift (j k : Nat) : List Word :=
  if j < k then [indentWord] else List.replicate (j - k) dedentWord

/-- The words of lines that follow a line of level `j`. -/
def arranged : Nat → List Line → List Word
  | j, [] => List.replicate j dedentWord
  | j, l :: ls => shift j l.level ++ wordsOf l.pieces ++ newlineWord :: arranged l.level ls

/-- No line goes deeper than one level below the line before it. -/
def Stepped : Nat → List Line → Prop
  | _, [] => True
  | j, l :: ls => l.level ≤ j + 1 ∧ Stepped l.level ls

variable {width : Nat}

theorem levels_length (width k : Nat) : (levels width k).length = k := by
  induction k with
  | zero => rfl
  | succ k ih => rw [levels, List.length_cons, ih]

theorem levels_headD (width k : Nat) : (levels width k).headD 0 = width * k := by
  cases k <;> rfl

theorem width_replicate (n : Nat) : Lexer.width (List.replicate n ' ') = n := by
  induction n with
  | zero => rfl
  | succ n ih =>
    rw [List.replicate_succ]
    change 1 + Lexer.width (List.replicate n ' ') = n + 1
    rw [ih, Nat.add_comm]

theorem closeTo_view (hw : 0 < width) {j k : Nat} (hkj : k ≤ j) (s : Scan) :
    (Scan.closeTo (width * k) (levels width j) s).view =
      { s.view with
        indents := levels width k
        words := s.view.words ++ List.replicate (j - k) dedentWord } := by
  induction j, hkj using Nat.le_induction generalizing s with
  | base =>
    rw [Nat.sub_self, List.replicate_zero, List.append_nil]
    cases k with
    | zero => rfl
    | succ k => simp [levels, Scan.closeTo, Scan.view]
  | succ j hkj ih =>
    have hlt : width * k < width * (j + 1) := Nat.mul_lt_mul_of_pos_left (by omega) hw
    rw [levels, Scan.closeTo, if_pos hlt, ih, show j + 1 - k = j - k + 1 by omega,
      List.replicate_succ]
    simp [Scan.view, Scan.mark, Token.word, dedentWord]

theorem indentTo_view (hw : 0 < width) {j k : Nat} (hkj : k ≤ j + 1) {s : Scan}
    (hs : s.indents = levels width j) :
    ∃ s', s.indentTo (width * k) = .ok s' ∧ s'.view =
      { s.view with indents := levels width k, words := s.view.words ++ shift j k } := by
  unfold Scan.indentTo
  simp only [hs, levels_headD]
  by_cases hjk : j < k
  · obtain rfl : k = j + 1 := by omega
    have hlt : width * j < width * (j + 1) := Nat.mul_lt_mul_of_pos_left hjk hw
    refine ⟨_, if_pos hlt, ?_⟩
    simp [Scan.view, Scan.mark, shift, levels, Token.word, indentWord]
  · have hge : ¬ width * j < width * k := Nat.not_lt.mpr (Nat.mul_le_mul_left width (by omega))
    have hview := closeTo_view hw (Nat.le_of_not_lt hjk) s
    have hindents : (Scan.closeTo (width * k) (levels width j) s).indents = levels width k :=
      congrArg View.indents hview
    refine ⟨_, by rw [if_neg hge, if_pos (by rw [hindents, levels_headD])], ?_⟩
    rw [hview, shift, if_neg hjk]

theorem reaches_indent (hw : 0 < width) {j k : Nat} (hkj : k ≤ j + 1) {c : Char}
    (hc : Inner c) {rest : List Char} {ws : List Word} :
    Reaches ⟨List.replicate (width * k) ' ' ++ c :: rest, levels width j, 0, true, ws⟩
      ⟨c :: rest, levels width k, 0, false, ws ++ shift j k⟩ := by
  refine reaches_step (by simp) ?_ ?_
  · simp only [View.measure, List.length_append, List.length_cons, if_true, Bool.false_eq_true,
      if_false]
    omega
  intro s hs
  have hrest : s.rest = List.replicate (width * k) ' ' ++ c :: rest := congrArg View.rest hs
  have hstart : s.lineStart = true := congrArg View.lineStart hs
  have hspace := hc.space
  simp only [isSpace, Bool.or_eq_false_iff, beq_eq_false_iff_ne] at hspace
  have hspaces : ∀ d ∈ List.replicate (width * k) ' ', isIndentation d = true := by
    intro d hd
    rw [List.eq_of_mem_replicate hd]
    rfl
  have hnext : ∀ d ∈ (c :: rest).head?, isIndentation d = false := by simp [isIndentation, hspace]
  have hlead := takeWhile_all hspaces hnext
  have hend : ¬ (c = '\r' ∨ c = '\n' ∨ c = '#') := by
    simp [hspace, hc.newline, hc.comment]
  obtain ⟨s', hok, hview⟩ := indentTo_view hw hkj
    (s := { s.passOver (List.replicate (width * k) ' ') (c :: rest) with lineStart := false })
    (congrArg View.indents hs)
  refine ⟨s', ?_, ?_⟩
  · rw [Scan.step, if_pos hstart, Scan.stepLineStart, hrest, hlead.1, hlead.2]
    simp only [Scan.passOver, if_neg hend, width_replicate]
    exact hok
  · have hwords : s.view.words = ws := congrArg View.words hs
    have hdepth : s.depth = 0 := congrArg View.depth hs
    rw [hview, ← hwords, ← hdepth]
    rfl

theorem lexable_inner {w : Word} (h : Lexable w) : ∃ c cs, w.lexeme.toList = c :: cs ∧ Inner c := by
  cases h with
  | @name c cs hc _ => exact ⟨c, cs, by simp, name_inner hc⟩
  | @digits cs h =>
    obtain ⟨c, cs, rfl⟩ := List.exists_cons_of_ne_nil h.1
    exact ⟨c, cs, by simp, (digit_plain (h.2 c List.mem_cons_self)).1⟩
  | @string cs _ => exact ⟨'"', cs, by simp, by decide, by decide, by decide⟩
  | @operator op h =>
    cases op with
    | nil => exact absurd h (by decide)
    | cons c cs => exact ⟨c, cs, by simp, (operator_symbolic h).toInner⟩
  | @delimiter c h => exact ⟨c, [], by simp, (delimiter_symbolic h).1.toInner⟩

theorem reaches_line (hw : 0 < width) {l : Line} (hl : Clean l.pieces) {j : Nat}
    (hj : l.level ≤ j + 1) (rest : List Char) (ws : List Word) :
    Reaches ⟨l.text width ++ rest, levels width j, 0, true, ws⟩
      ⟨rest, levels width l.level, 0, true,
        ws ++ shift j l.level ++ wordsOf l.pieces ++ [newlineWord]⟩ := by
  have hspaced := hl.spaced rest
  obtain ⟨c, cs, hspell, hc⟩ : ∃ c cs, spell l.pieces = c :: cs ∧ Inner c := by
    obtain ⟨w, ps, hps⟩ := hl.starts
    rw [hps] at hspaced ⊢
    obtain ⟨c, cs, hcs, hc⟩ := lexable_inner hspaced.1
    exact ⟨c, cs ++ spell ps, by simp [spell, Piece.text, hcs], hc⟩
  have htext : l.text width ++ rest =
      List.replicate (width * l.level) ' ' ++ (spell l.pieces ++ '\n' :: rest) := by
    simp [Line.text]
  have hpieces := reaches_pieces hspaced (levels width l.level) 0 (ws ++ shift j l.level)
  rw [hl.balanced] at hpieces
  refine reaches_trans ?_ (reaches_trans hpieces reaches_newline)
  rw [htext, hspell]
  exact reaches_indent hw hj hc

/-- Reading lines emits their words, but for the DEDENTs that are still to come. -/
theorem reaches_lines (hw : 0 < width) {ls : List Line} (hc : ∀ l ∈ ls, Clean l.pieces) {j : Nat}
    (hs : Stepped j ls) (ws : List Word) (hn : ∀ w ∈ ws.getLast?, w.kind = .newline) :
    ∃ k ws', Reaches ⟨ls.flatMap (Line.text width), levels width j, 0, true, ws⟩
        ⟨[], levels width k, 0, true, ws'⟩ ∧
      ws' ++ List.replicate k dedentWord = ws ++ arranged j ls ∧
      ∀ w ∈ ws'.getLast?, w.kind = .newline := by
  induction ls generalizing j ws with
  | nil => exact ⟨j, ws, reaches_refl _, rfl, hn⟩
  | cons l ls ih =>
    obtain ⟨hj, hs⟩ := hs
    have hline := reaches_line hw (hc l List.mem_cons_self) hj (ls.flatMap (Line.text width)) ws
    obtain ⟨k, ws', hr, he, hn'⟩ := ih (fun l' hl' => hc l' (List.mem_cons_of_mem l hl')) hs
      (ws ++ shift j l.level ++ wordsOf l.pieces ++ [newlineWord]) (by simp [newlineWord])
    refine ⟨k, ws', reaches_trans hline hr, ?_, hn'⟩
    rw [he, arranged]
    simp

theorem marks_view (is : List Nat) (s : Scan) :
    (is.foldl (fun s _ => s.mark .dedent) s).tokens.reverse.map Token.word =
      s.tokens.reverse.map Token.word ++ List.replicate is.length dedentWord := by
  induction is generalizing s with
  | nil => simp
  | cons i is ih =>
    rw [List.foldl_cons, ih, List.length_cons, List.replicate_succ]
    simp [Scan.mark, Token.word, dedentWord]

/-- After a whole line only the open levels are closed at the end. -/
theorem finish_words {s : Scan} (hn : ∀ w ∈ s.view.words.getLast?, w.kind = .newline) :
    s.finish.map Token.word =
      s.view.words ++ List.replicate s.indents.length dedentWord ++ [⟨.stop, ""⟩] := by
  have hfinish : s.finish =
      ((s.indents.foldl (fun s _ => s.mark .dedent) s).mark .stop).tokens.reverse := by
    obtain ⟨r, p, i, d, l, t⟩ := s
    cases t with
    | nil => rfl
    | cons last ts =>
      have hk : last.kind = .newline := hn last.word (by simp [Scan.view])
      simp [Scan.finish, hk]
  rw [hfinish, Scan.mark, List.reverse_cons, List.map_append, marks_view]
  rfl

/-- A text of clean lines is read as their words, with the layout that their levels tell. -/
theorem tokenize_lines (hw : 0 < width) {ls : List Line} (hc : ∀ l ∈ ls, Clean l.pieces)
    (hs : Stepped 0 ls) :
    ∃ ts, tokenize (String.ofList (ls.flatMap (Line.text width))) = .ok ts ∧
      ts.map Token.word = arranged 0 ls ++ [⟨.stop, ""⟩] := by
  obtain ⟨k, ws, hr, he, hn⟩ := reaches_lines hw hc hs [] (by simp)
  unfold tokenize
  simp only [String.toList_ofList]
  obtain ⟨s, hrun, hview⟩ := run_of_reaches (s := Scan.start (ls.flatMap (Line.text width))) hr rfl
    (n := 2 * (ls.flatMap (Line.text width)).length + 1)
    (by simp [View.measure, Scan.view, Scan.start])
  rw [hrun]
  have hindents : s.indents = levels width k := congrArg View.indents hview
  refine ⟨s.finish, rfl, ?_⟩
  rw [finish_words (by rw [hview]; exact hn), hview, hindents, levels_length, he]
  rfl

/-! ### Trees of lines -/

/-- A line, or a line with a block below it. -/
inductive Layout where
  | line (ps : List Piece)
  | block (header : List Piece) (body : List Layout)

namespace Layout

mutual
def lines (level : Nat) : Layout → List Line
  | line ps => [⟨level, ps⟩]
  | block header body => ⟨level, header⟩ :: linesAll (level + 1) body
def linesAll (level : Nat) : List Layout → List Line
  | [] => []
  | l :: ls => l.lines level ++ linesAll level ls
end

mutual
/-- The words of a layout, with marks around its blocks. -/
def words : Layout → List Word
  | line ps => wordsOf ps ++ [newlineWord]
  | block header body =>
    wordsOf header ++ newlineWord :: indentWord :: (wordsAll body ++ [dedentWord])
def wordsAll : List Layout → List Word
  | [] => []
  | l :: ls => l.words ++ wordsAll ls
end

/-- A layout of clean lines without empty blocks. -/
inductive Good : Layout → Prop where
  | line {ps : List Piece} : Clean ps → Good (line ps)
  | block {header : List Piece} {body : List Layout} : Clean header → body ≠ [] →
      (∀ l ∈ body, Good l) → Good (block header body)

def source (width : Nat) (ls : List Layout) : String :=
  String.ofList ((linesAll 0 ls).flatMap (Line.text width))

theorem wordsAll_append (ls ms : List Layout) :
    wordsAll (ls ++ ms) = wordsAll ls ++ wordsAll ms := by
  induction ls with
  | nil => rfl
  | cons l ls ih => simp [wordsAll, ih]

theorem lines_head (level : Nat) (l : Layout) :
    ∃ ps rest, l.lines level = ⟨level, ps⟩ :: rest := by
  cases l with
  | line ps => exact ⟨ps, [], rfl⟩
  | block header body => exact ⟨header, linesAll (level + 1) body, rfl⟩

/-- The next line, if any, is not deeper than a level. -/
def Shallow (level : Nat) (rest : List Line) : Prop := ∀ l ∈ rest.head?, l.level ≤ level

theorem Shallow.mono {m n : Nat} {rest : List Line} (h : Shallow m rest) (hmn : m ≤ n) :
    Shallow n rest :=
  fun l hl => Nat.le_trans (h l hl) hmn

theorem shallow_linesAll (level : Nat) (ls : List Layout) {rest : List Line}
    (h : Shallow level rest) : Shallow level (linesAll level ls ++ rest) := by
  cases ls with
  | nil => exact h
  | cons l ls =>
    obtain ⟨ps, more, hl⟩ := lines_head level l
    simp [linesAll, hl, Shallow]

theorem shift_self (k : Nat) : shift k k = [] := by simp [shift]

theorem shift_succ (k : Nat) : shift k (k + 1) = [indentWord] := by simp [shift]

theorem arranged_succ {k : Nat} {rest : List Line} (h : Shallow k rest) :
    arranged (k + 1) rest = dedentWord :: arranged k rest := by
  cases rest with
  | nil => rfl
  | cons l rest =>
    have hl := h l rfl
    have hshift : shift (k + 1) l.level = dedentWord :: shift k l.level := by
      simp only [shift]
      rw [if_neg (by omega), if_neg (by omega), show k + 1 - l.level = k - l.level + 1 by omega]
      rfl
    simp [arranged, hshift]

theorem arranged_all {ls : List Layout} {k : Nat} {rest : List Line} (h : Shallow k rest)
    (ih : ∀ l ∈ ls, ∀ k j rest, k ≤ j + 1 → Shallow k rest →
      arranged j (l.lines k ++ rest) = shift j k ++ l.words ++ arranged k rest) :
    arranged k (linesAll k ls ++ rest) = wordsAll ls ++ arranged k rest := by
  induction ls with
  | nil => rfl
  | cons l ls ihls =>
    have htail := ihls fun l' hl' => ih l' (List.mem_cons_of_mem l hl')
    rw [linesAll, List.append_assoc, ih l List.mem_cons_self k k _ (Nat.le_succ k)
      (shallow_linesAll k ls h), htail, shift_self, wordsAll]
    simp

theorem arranged_lines {l : Layout} (h : l.Good) :
    ∀ k j rest, k ≤ j + 1 → Shallow k rest →
      arranged j (l.lines k ++ rest) = shift j k ++ l.words ++ arranged k rest := by
  induction h with
  | line _ =>
    intro k j rest _ _
    simp [lines, words, arranged]
  | @block header body _ hne _ ih =>
    intro k j rest hkj hrest
    obtain ⟨b, bs, rfl⟩ := List.exists_cons_of_ne_nil hne
    have hdeep := hrest.mono (Nat.le_succ k)
    have hfirst := ih b List.mem_cons_self (k + 1) k (linesAll (k + 1) bs ++ rest) (Nat.le_refl _)
      (shallow_linesAll (k + 1) bs hdeep)
    have hothers := arranged_all hdeep fun l hl => ih l (List.mem_cons_of_mem b hl)
    rw [shift_succ, hothers, arranged_succ hrest] at hfirst
    rw [lines, linesAll, List.cons_append, List.append_assoc, arranged, hfirst, words, wordsAll]
    simp

theorem stepped_mono {i j : Nat} {ls : List Line} (h : Stepped i ls) (hij : i ≤ j) :
    Stepped j ls := by
  cases ls with
  | nil => trivial
  | cons l ls => exact ⟨Nat.le_trans h.1 (Nat.succ_le_succ hij), h.2⟩

theorem stepped_all {ls : List Layout} {i j k : Nat} {rest : List Line} (hkj : k ≤ j + 1)
    (hij : i ≤ j) (hik : i ≤ k) (h : Stepped i rest)
    (ih : ∀ l ∈ ls, ∀ k j rest, k ≤ j + 1 → Stepped k rest → Stepped j (l.lines k ++ rest)) :
    Stepped j (linesAll k ls ++ rest) := by
  induction ls generalizing j with
  | nil => exact stepped_mono h hij
  | cons l ls ihls =>
    rw [linesAll, List.append_assoc]
    exact ih l List.mem_cons_self k j _ hkj
      (ihls (Nat.le_succ k) hik fun l' hl' => ih l' (List.mem_cons_of_mem l hl'))

theorem stepped_lines {l : Layout} (h : l.Good) :
    ∀ k j rest, k ≤ j + 1 → Stepped k rest → Stepped j (l.lines k ++ rest) := by
  induction h with
  | line _ => exact fun k j rest hkj hrest => ⟨hkj, hrest⟩
  | block _ _ _ ih =>
    intro k j rest hkj hrest
    exact ⟨hkj, stepped_all (Nat.le_refl _) (Nat.le_refl k) (Nat.le_succ k) hrest ih⟩

theorem clean_all {ls : List Layout} {k : Nat}
    (ih : ∀ l ∈ ls, ∀ k, ∀ m ∈ l.lines k, Clean m.pieces) :
    ∀ m ∈ linesAll k ls, Clean m.pieces := by
  induction ls with
  | nil => simp [linesAll]
  | cons l ls ihls =>
    intro m hm
    rcases List.mem_append.mp hm with hm | hm
    · exact ih l List.mem_cons_self k m hm
    · exact ihls (fun l' hl' => ih l' (List.mem_cons_of_mem l hl')) m hm

theorem clean_lines {l : Layout} (h : l.Good) : ∀ k, ∀ m ∈ l.lines k, Clean m.pieces := by
  induction h with
  | line hc =>
    intro k m hm
    rw [List.mem_singleton.mp hm]
    exact hc
  | block hc _ _ ih =>
    intro k m hm
    rcases List.mem_cons.mp hm with rfl | hm
    · exact hc
    · exact clean_all ih m hm

theorem tokenize_source {width : Nat} (hw : 0 < width) {ls : List Layout}
    (h : ∀ l ∈ ls, l.Good) :
    ∃ ts, tokenize (source width ls) = .ok ts ∧
      ts.map Token.word = wordsAll ls ++ [⟨.stop, ""⟩] := by
  have hclean := clean_all (k := 0) fun l hl => clean_lines (h l hl)
  have hstepped : Stepped 0 (linesAll 0 ls ++ []) :=
    stepped_all (i := 0) (Nat.zero_le 1) (Nat.le_refl 0) (Nat.le_refl 0) trivial
      fun l hl => stepped_lines (h l hl)
  have harranged := arranged_all (show Shallow 0 [] by simp [Shallow])
    fun l hl => arranged_lines (h l hl)
  rw [List.append_nil] at hstepped harranged
  obtain ⟨ts, hts, hwords⟩ := tokenize_lines hw hclean hstepped
  refine ⟨ts, hts, ?_⟩
  rw [hwords, harranged]
  simp [arranged]

end Layout

end Offside.Lexer
