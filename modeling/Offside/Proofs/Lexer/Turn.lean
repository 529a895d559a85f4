import Mathlib
import Offside.Proofs.Lexer.Spelling

/-!
The steps of the lexer in full. A turn says all that a step does and when it does it: which text is
passed over and why, which widths are opened or closed, which word is taken. A refusal says where
and why the reading is given up. A whole reading is a chain of turns that ends where the text does.
-/

namespace Offside.Lexer

/-- What makes a line one to be read: after its indentation comes neither its end nor a comment. -/
structure IsContent (c : Char) : Prop where
  indentation : isIndentation c = false
  carriage : c ≠ '\r'
  newline : c ≠ '\n'
  comment : c ≠ '#'

def IsIndentation (cs : List Char) : Prop := ∀ c ∈ cs, isIndentation c = true

def OneLine (cs : List Char) : Prop := '\n' ∉ cs

def IsBracket (c : Char) : Prop := c ∈ openBrackets ++ closeBrackets

/-- A text that the lexer takes for a word of this kind. -/
structure IsWord (kind : TokenKind) (cs : List Char) : Prop where
  ofLine : kind.OfLine
  starts : ∃ c rest, cs = c :: rest ∧ Inner c
  oneLine : OneLine cs
  spelled : kind = .operator → cs ∈ operators
  brackets : ∀ c ∈ cs, IsBracket c → kind = .string ∨ kind = .delimiter ∧ cs = [c]

/-- A line without content, with its end if there is one. -/
structure Void (cs rest : List Char) : Prop where
  parts : ∃ lead body ending, cs = lead ++ (body ++ ending) ∧ IsIndentation lead ∧ OneLine body ∧
    (∀ c ∈ body.head?, c = '\r' ∨ c = '#') ∧ (ending = ['\n'] ∨ ending = [] ∧ rest = [])
  nonempty : cs ≠ []

namespace Scan

/-- A logical line begins: its indentation is next, and then its first character. -/
structure AtLine (s : Scan) (lead : List Char) (c : Char) (more : List Char) : Prop where
  lineStart : s.lineStart = true
  text : s.rest = lead ++ c :: more
  lead : IsIndentation lead
  content : IsContent c

def top (s : Scan) : Nat := s.indents.headD 0

inductive Turn (s : Scan) : Scan → Prop where
  | void {taken rest : List Char} : s.lineStart = true → s.rest = taken ++ rest →
      Void taken rest → Turn s (s.passOver taken rest)
  | deeper {lead more : List Char} {c : Char} : s.AtLine lead c more → s.top < width lead →
      Turn s ((s.passOver lead (c :: more)).settled.opened (width lead))
  | back {lead more : List Char} {c : Char} {inner outer : List Nat} : s.AtLine lead c more →
      s.indents = inner ++ outer → (∀ w ∈ inner, width lead < w) → outer.headD 0 = width lead →
      Turn s ((s.passOver lead (c :: more)).settled.closed inner.length outer)
  | newline {rest : List Char} : s.lineStart = false → s.depth = 0 → s.rest = '\n' :: rest →
      Turn s { s.take .newline ['\n'] rest with lineStart := true }
  | space {c : Char} {rest : List Char} : s.lineStart = false → s.rest = c :: rest →
      isSpace c = true ∨ c = '\n' ∧ 0 < s.depth → Turn s (s.passOver [c] rest)
  | comment {body rest : List Char} : s.lineStart = false → s.rest = '#' :: (body ++ rest) →
      OneLine body → (∀ c ∈ rest.head?, c = '\n') → Turn s (s.passOver ('#' :: body) rest)
  | word {kind : TokenKind} {taken rest : List Char} : s.lineStart = false →
      s.rest = taken ++ rest → IsWord kind taken →
      Turn s { s.take kind taken rest with
        depth := wordDepth s.depth ⟨kind, String.ofList taken⟩ }

/-- Why and where a reading is given up. -/
inductive Refusal (s : Scan) : LexError → Prop where
  | dedent {lead more : List Char} {c : Char} {inner outer : List Nat} : s.AtLine lead c more →
      s.indents = inner ++ outer → inner ≠ [] → (∀ w ∈ inner, width lead < w) →
      outer.headD 0 < width lead → Refusal s ⟨.inconsistentDedent (width lead), s.pos.after lead⟩
  | unterminated {q : Char} {more : List Char} : s.lineStart = false → s.rest = q :: more →
      q = '"' ∨ q = '\'' → splitString q more = none → Refusal s ⟨.unterminatedString, s.pos⟩
  | unknown {c : Char} {more : List Char} : s.lineStart = false → s.rest = c :: more →
      Symbolic c → operators.find? (·.isPrefixOf (c :: more)) = none → c ∉ delimiters →
      Refusal s ⟨.unknownCharacter c, s.pos⟩

def Steps (s : Scan) : Except LexError Scan → Prop
  | .ok s' => Turn s s'
  | .error e => Refusal s e

variable {s s' : Scan}

/-! ### The start of a line -/

/-- Closing goes up to the first level that is not deeper. -/
theorem closeTo_levels (width : Nat) (is : List Nat) (s : Scan) :
    ∃ inner outer, is = inner ++ outer ∧ (∀ w ∈ inner, width < w) ∧ outer.headD 0 ≤ width ∧
      closeTo width is s = s.closed inner.length outer := by
  induction is generalizing s with
  | nil => exact ⟨[], [], rfl, List.forall_mem_nil _, Nat.zero_le _, rfl⟩
  | cons w is ih =>
    rw [closeTo]
    split
    · next hw =>
      obtain ⟨inner, outer, rfl, hinner, houter, hclose⟩ := ih (s.mark .dedent)
      refine ⟨w :: inner, outer, rfl, List.forall_mem_cons.mpr ⟨hw, hinner⟩, houter, ?_⟩
      rw [hclose]
      simp [closed, mark, List.replicate_succ']
    · next hw => exact ⟨[], w :: is, rfl, List.forall_mem_nil _, Nat.le_of_not_lt hw, rfl⟩

/-- What comes of the indentation of a line: a new level, an open one, or neither. -/
inductive Settling (s : Scan) (lead : List Char) (c : Char) (more : List Char) :
    Except LexError Scan → Prop where
  | deeper : s.top < width lead →
      Settling s lead c more (.ok ((s.passOver lead (c :: more)).settled.opened (width lead)))
  | back {inner outer : List Nat} : s.indents = inner ++ outer → (∀ w ∈ inner, width lead < w) →
      outer.headD 0 = width lead →
      Settling s lead c more (.ok ((s.passOver lead (c :: more)).settled.closed inner.length outer))
  | refused {inner outer : List Nat} : s.indents = inner ++ outer → inner ≠ [] →
      (∀ w ∈ inner, width lead < w) → outer.headD 0 < width lead →
      Settling s lead c more (.error ⟨.inconsistentDedent (width lead), s.pos.after lead⟩)

theorem indentTo_settles (s : Scan) (lead : List Char) (c : Char) (more : List Char) :
    Settling s lead c more ((s.passOver lead (c :: more)).settled.indentTo (width lead)) := by
  unfold indentTo
  dsimp only
  split
  · next hlt => exact .deeper hlt
  · next hlt =>
    obtain ⟨inner, outer, hsplit, hinner, houter, hclose⟩ :=
      closeTo_levels (width lead) (s.passOver lead (c :: more)).settled.indents
        (s.passOver lead (c :: more)).settled
    rw [hclose]
    by_cases heq : outer.headD 0 = width lead
    · rw [if_pos (show (closed _ _ outer).indents.headD 0 = width lead from heq)]
      exact .back hsplit hinner heq
    · rw [if_neg (show ¬ (closed _ _ outer).indents.headD 0 = width lead from heq)]
      have hlow : outer.headD 0 < width lead := lt_of_le_of_ne houter heq
      refine .refused hsplit ?_ hinner hlow
      rintro rfl
      rw [List.nil_append] at hsplit
      exact hlt (show s.indents.headD 0 < _ from hsplit ▸ hlow)

theorem Settling.steps {lead more : List Char} {c : Char} {r : Except LexError Scan}
    (hr : Settling s lead c more r) (h : s.AtLine lead c more) : Steps s r := by
  cases hr with
  | deeper hlt => exact .deeper h hlt
  | back hsplit hinner heq => exact .back h hsplit hinner heq
  | refused hsplit hne hinner hlow => exact .dedent h hsplit hne hinner hlow

/-- At a logical line a step settles its indentation. -/
theorem AtLine.step_eq {lead more : List Char} {c : Char} (h : s.AtLine lead c more) :
    s.step = (s.passOver lead (c :: more)).settled.indentTo (width lead) := by
  have hstop : ∀ d ∈ (c :: more).head?, isIndentation d = false := by
    simp [h.content.indentation]
  have hlead := takeWhile_all h.lead hstop
  have hcontent : ¬ (c = '\r' ∨ c = '\n' ∨ c = '#') := by
    simp [h.content.carriage, h.content.newline, h.content.comment]
  rw [step, if_pos h.lineStart, stepLineStart, h.text, hlead.1, hlead.2]
  simp only [passOver, settled, if_neg hcontent]

theorem AtLine.settles {lead more : List Char} {c : Char} (h : s.AtLine lead c more) :
    Settling s lead c more s.step := by
  rw [h.step_eq]
  exact indentTo_settles s lead c more

theorem oneLine_takeWhile (cs : List Char) : OneLine (cs.takeWhile (!isLineEnd ·)) := by
  intro h
  have := List.mem_takeWhile_imp h
  simp [isLineEnd] at this

theorem head_dropWhile_line (cs : List Char) :
    ∀ c ∈ (cs.dropWhile (!isLineEnd ·)).head?, c = '\n' := by
  intro c hc
  have := List.head?_dropWhile_not (!isLineEnd ·) cs
  rw [Option.mem_def.mp hc] at this
  simpa [isLineEnd] using this

/-- A line without content is passed over with its end. -/
theorem skipLine_void {lead text : List Char} (hl : IsIndentation lead)
    (hs : s.rest = lead ++ text) (hhead : ∀ c ∈ text.head?, c = '\r' ∨ c = '\n' ∨ c = '#')
    (hne : s.rest ≠ []) :
    ∃ taken rest, s.rest = taken ++ rest ∧ Void taken rest ∧
      (s.passOver lead text).skipLine = s.passOver taken rest := by
  have hsplit : text = text.takeWhile (!isLineEnd ·) ++ text.dropWhile (!isLineEnd ·) :=
    List.takeWhile_append_dropWhile.symm
  have hend := head_dropWhile_line text
  have hbody : ∀ c ∈ (text.takeWhile (!isLineEnd ·)).head?, c = '\r' ∨ c = '#' := by
    intro c hc
    have hne : c ≠ '\n' := fun h => oneLine_takeWhile text (h ▸ List.mem_of_mem_head? hc)
    cases text with
    | nil => cases hc
    | cons d text =>
      rw [List.takeWhile_cons] at hc
      split at hc
      · obtain rfl : d = c := Option.some.inj hc
        rcases hhead d rfl with h | h | h
        · exact .inl h
        · exact absurd h hne
        · exact .inr h
      · cases hc
  unfold skipLine skipComment
  rw [passOver_passOver]
  dsimp only [passOver]
  revert hsplit hend
  generalize text.dropWhile (!isLineEnd ·) = tail
  intro hsplit hend
  have hone := oneLine_takeWhile text
  cases tail with
  | nil =>
    have htaken : s.rest = (lead ++ text.takeWhile (!isLineEnd ·)) ++ [] := by
      rw [hs]
      conv_lhs => rw [hsplit]
      simp
    refine ⟨_, _, htaken, ⟨⟨lead, _, [], by simp, hl, hone, hbody, .inr ⟨rfl, rfl⟩⟩, ?_⟩, rfl⟩
    intro h
    rw [htaken, h] at hne
    exact hne rfl
  | cons d rest =>
    obtain rfl : d = '\n' := hend d rfl
    refine ⟨lead ++ text.takeWhile (!isLineEnd ·) ++ ['\n'], rest, ?_,
      ⟨⟨lead, _, ['\n'], by simp, hl, hone, hbody, .inl rfl⟩, by simp⟩, ?_⟩
    · rw [hs]
      conv_lhs => rw [hsplit]
      simp
    · simp [Position.after, List.foldl_append]

theorem stepLineStart_steps (hl : s.lineStart = true) (hne : s.rest ≠ []) :
    Steps s s.stepLineStart := by
  have hsplit : s.rest = s.rest.takeWhile isIndentation ++ s.rest.dropWhile isIndentation :=
    List.takeWhile_append_dropWhile.symm
  have hlead : IsIndentation (s.rest.takeWhile isIndentation) := fun c hc =>
    List.mem_takeWhile_imp hc
  have hstop := List.head?_dropWhile_not isIndentation s.rest
  unfold stepLineStart
  dsimp only [passOver]
  revert hsplit hlead hstop
  generalize s.rest.takeWhile isIndentation = lead
  generalize s.rest.dropWhile isIndentation = text
  intro hsplit hlead hstop
  cases text with
  | nil =>
    have hvoid : Void lead [] := by
      refine ⟨⟨lead, [], [], by simp, hlead, List.not_mem_nil, nofun, .inr ⟨rfl, rfl⟩⟩, ?_⟩
      rintro rfl
      exact hne hsplit
    exact .void hl hsplit hvoid
  | cons c more =>
    dsimp only
    split
    · next hc =>
      obtain ⟨taken, rest, ht, hvoid, he⟩ := skipLine_void hlead hsplit
        (by simpa using hc) hne
      change Steps s (.ok (Scan.skipLine (s.passOver lead (c :: more))))
      rw [he]
      exact .void hl ht hvoid
    · next hc =>
      rw [not_or, not_or] at hc
      exact (indentTo_settles s lead c more).steps
        ⟨hl, hsplit, hlead, by simpa using hstop, hc.1, hc.2.1, hc.2.2⟩

end Scan

/-! ### Inside a line -/

theorem oneLine_while {p : Char → Bool} (hp : p '\n' = false) (cs : List Char) :
    OneLine (cs.takeWhile p) := by
  intro h
  rw [List.mem_takeWhile_imp h] at hp
  cases hp

theorem OneLine.cons {c : Char} {cs : List Char} (hc : c ≠ '\n') (h : OneLine cs) :
    OneLine (c :: cs) :=
  List.not_mem_cons_of_ne_of_not_mem hc.symm h

theorem OneLine.append {cs ds : List Char} (hc : OneLine cs) (hd : OneLine ds) :
    OneLine (cs ++ ds) :=
  fun h => (List.mem_append.mp h).elim hc hd

theorem IsIndentation.oneLine {cs : List Char} (h : IsIndentation cs) : OneLine cs :=
  fun hmem => absurd (h _ hmem) (by decide)

theorem splitString_oneLine (quote : Char) (cs : List Char) {body after : List Char}
    (h : splitString quote cs = some (body, after)) : OneLine body := by
  fun_induction splitString quote cs generalizing body after with
  | case1 | case2 | case4 => cases h
  | case3 c rest hc ih =>
    obtain ⟨⟨body', after'⟩, hsplit, he⟩ := Option.map_eq_some_iff.mp h
    cases he
    exact .cons (by decide) (.cons hc (ih hsplit))
  | case5 rest hesc hc =>
    cases h
    exact .cons (fun h => hc (.inl h)) List.not_mem_nil
  | case6 c rest hesc hc hq ih =>
    obtain ⟨⟨body', after'⟩, hsplit, he⟩ := Option.map_eq_some_iff.mp h
    cases he
    exact .cons (fun h => hc (.inl h)) (ih hsplit)

theorem digit_inner {c : Char} (h : Text.isDigit c = true) : Inner c := by
  have hall : ∀ d ∈ ['\n', ' ', '\t', '\r', '\x0c', '#'], ¬ Text.isDigit d = true :=
    List.all_iff_forall_prop.mp (by decide)
  have hne : ∀ d ∈ ['\n', ' ', '\t', '\r', '\x0c', '#'], c ≠ d := by
    rintro d hd rfl
    exact hall c hd h
  refine ⟨hne _ (by simp), ?_, hne _ (by simp)⟩
  simp [isSpace, hne]

theorem Digits.oneLine {cs : List Char} (h : Digits cs) : OneLine cs :=
  fun hn => (digit_inner (h.2 _ hn)).newline rfl

theorem Digits.starts {cs : List Char} (h : Digits cs) : ∃ c rest, cs = c :: rest ∧ Inner c := by
  obtain ⟨c, rest, rfl⟩ := List.exists_cons_of_ne_nil h.1
  exact ⟨c, rest, rfl, digit_inner (h.2 c List.mem_cons_self)⟩

theorem bracket_symbolic {c : Char} (h : IsBracket c) : Symbolic c :=
  (delimiter_symbolic (List.mem_append_left _ h)).1

theorem bracket_not_wordChar {c : Char} (h : IsBracket c) : Text.isWordChar c = false := by
  have hall : ∀ d ∈ openBrackets ++ closeBrackets, Text.isWordChar d = false :=
    List.all_iff_forall_prop.mp (by decide)
  exact hall c h

theorem number_isWord {c : Char} {cs : List Char} (hc : Text.isDigit c = true) {kind : TokenKind}
    {number after : List Char} (h : splitNumber (c :: cs) = (kind, number, after)) :
    IsWord kind number ∧ kind ≠ .delimiter := by
  have hkind : kind = .integer ∨ kind = .float := by
    unfold splitNumber at h
    dsimp only at h
    split at h
    · split at h <;> cases h <;> simp
    · cases h
      simp
  obtain ⟨-, hspell⟩ := splitNumber_spells hc h
  rcases hkind with rfl | rfl
  · exact ⟨⟨trivial, hspell.starts, hspell.oneLine, nofun, fun e he hbracket =>
      absurd (hspell.2 e he) (bracket_symbolic hbracket).digit⟩, by decide⟩
  · obtain ⟨ds, fs, rfl, hd, hf⟩ := hspell
    have hplain : ∀ e ∈ ds ++ '.' :: fs, ¬ IsBracket e := by
      intro e he hbracket
      have hdigit := (bracket_symbolic hbracket).digit
      rcases List.mem_append.mp he with he | he
      · exact hdigit (hd.2 e he)
      · rcases List.mem_cons.mp he with rfl | he
        · revert hbracket
          unfold IsBracket
          decide
        · exact hdigit (hf.2 e he)
    obtain ⟨d, rest, rfl, hinner⟩ := hd.starts
    refine ⟨⟨trivial, ⟨d, _, rfl, hinner⟩, fun hn => ?_, nofun,
      fun e he hbracket => absurd hbracket (hplain e he)⟩, by decide⟩
    rcases List.mem_append.mp hn with hn | hn
    · exact hd.oneLine hn
    · exact OneLine.cons (by decide) hf.oneLine hn

theorem name_isWord {c : Char} {cs : List Char} (hc : Text.isLetter c = true ∨ c = '_') :
    IsWord (wordKind (c :: cs.takeWhile Text.isWordChar)) (c :: cs.takeWhile Text.isWordChar) where
  ofLine := by
    rcases wordKind_cases (c :: cs.takeWhile Text.isWordChar) with h | h <;> rw [h] <;> trivial
  starts := ⟨c, _, rfl, name_inner hc⟩
  oneLine := .cons (name_inner hc).newline (oneLine_while (by decide) cs)
  spelled := by
    rcases wordKind_cases (c :: cs.takeWhile Text.isWordChar) with h | h <;> rw [h] <;> exact nofun
  brackets := by
    intro d hd hbracket
    rcases List.mem_cons.mp hd with rfl | hd
    · exact absurd hc (bracket_symbolic hbracket).letter
    · have hword := List.mem_takeWhile_imp hd
      rw [bracket_not_wordChar hbracket] at hword
      cases hword

theorem operator_isWord {op : List Char} (h : op ∈ operators) : IsWord .operator op := by
  have hall : ∀ op ∈ operators, op ≠ [] ∧ '\n' ∉ op := by decide
  have hplain : ∀ d ∈ openBrackets ++ closeBrackets, ∀ op ∈ operators, d ∉ op :=
    List.all_iff_forall_prop.mp (by decide)
  obtain ⟨hne, hline⟩ := hall op h
  obtain ⟨c, rest, rfl⟩ := List.exists_cons_of_ne_nil hne
  exact ⟨trivial, ⟨c, rest, rfl, (operator_symbolic h).toInner⟩, hline, fun _ => h,
    fun d hd hbracket => absurd hd (hplain d hbracket _ h)⟩

theorem quote_inner {q : Char} (h : q = '"' ∨ q = '\'') : Inner q := by
  rcases h with rfl | rfl <;> exact ⟨by decide, by decide, by decide⟩

theorem string_isWord {q : Char} {cs body after : List Char} (hq : q = '"' ∨ q = '\'')
    (h : splitString q cs = some (body, after)) : IsWord .string (q :: body) :=
  ⟨trivial, ⟨q, body, rfl, quote_inner hq⟩,
    .cons (quote_inner hq).newline (splitString_oneLine q cs h), nofun, fun _ _ _ => .inl rfl⟩

theorem delimiter_isWord {c : Char} (h : c ∈ delimiters) : IsWord .delimiter [c] :=
  ⟨trivial, ⟨c, [], rfl, (delimiter_symbolic h).1.toInner⟩,
    .cons (delimiter_symbolic h).1.toInner.newline List.not_mem_nil, nofun,
    fun _ hd _ => .inr ⟨rfl, by rw [List.mem_singleton.mp hd]⟩⟩

namespace Scan

variable {s s' : Scan}

/-- A word that is no delimiter leaves the depth alone. -/
theorem take_steps {kind : TokenKind} {taken rest : List Char} (hl : s.lineStart = false)
    (hs : s.rest = taken ++ rest) (h : IsWord kind taken) (hk : kind ≠ .delimiter) :
    Steps s (.ok (s.take kind taken rest)) := by
  have hturn := Turn.word hl hs h
  rwa [wordDepth_of_kind hk] at hturn

theorem stepInLine_steps {c : Char} {rest : List Char} (hl : s.lineStart = false)
    (hs : s.rest = c :: rest) : Steps s (s.stepInLine c rest) := by
  unfold stepInLine
  split
  · next hc =>
    subst hc
    split
    · next hd => exact .newline hl hd hs
    · next hd => exact .space hl hs (.inr ⟨rfl, Nat.pos_of_ne_zero hd⟩)
  next hnewline =>
  split
  · next hspace => exact .space hl hs (.inl hspace)
  next hspace =>
  split
  · next hc =>
    subst hc
    have htake : s.rest.takeWhile (!isLineEnd ·) = '#' :: rest.takeWhile (!isLineEnd ·) := by
      rw [hs]
      rfl
    have hdrop : s.rest.dropWhile (!isLineEnd ·) = rest.dropWhile (!isLineEnd ·) := by
      rw [hs]
      rfl
    rw [skipComment, htake, hdrop]
    refine .comment hl ?_ (oneLine_takeWhile rest) (head_dropWhile_line rest)
    rw [List.takeWhile_append_dropWhile, hs]
  next hcomment =>
  split
  · next hletter =>
    refine take_steps hl ?_ (name_isWord hletter) ?_
    · rw [hs, List.cons_append, List.takeWhile_append_dropWhile]
    · rcases wordKind_cases (c :: rest.takeWhile Text.isWordChar) with h | h <;> rw [h] <;> decide
  next hletter =>
  split
  · next hd =>
    obtain ⟨⟨kind, number, after⟩, hn⟩ : ∃ r, splitNumber (c :: rest) = r := ⟨_, rfl⟩
    obtain ⟨hword, hk⟩ := number_isWord hd hn
    rw [hn]
    exact take_steps hl (hs.trans (splitNumber_spells hd hn).1) hword hk
  next hdigit =>
  split
  · next hq =>
    split
    · next body after hb =>
      refine take_steps hl ?_ (string_isWord hq hb) (by decide)
      rw [hs, splitString_append c rest hb, List.cons_append]
    · next hb => exact .unterminated hl hs hq hb
  next hquote =>
  split
  · next op hop =>
    have hpre := List.find?_some (p := fun op : List Char => op.isPrefixOf (c :: rest)) hop
    obtain ⟨after, ha⟩ := List.isPrefixOf_iff_prefix.mp hpre
    refine take_steps hl ?_ (operator_isWord (List.mem_of_find?_eq_some hop)) (by decide)
    rw [hs, ← ha, List.drop_left]
  · next hop =>
    split
    · next hdel =>
      have hc : c ∈ delimiters := by simpa using hdel
      have hrest : s.rest = [c] ++ rest := hs
      have hturn := Turn.word hl hrest (delimiter_isWord hc)
      have hdepth : wordDepth s.depth ⟨.delimiter, String.ofList [c]⟩ = depthAfter s.depth c := by
        simp [wordDepth]
      rwa [hdepth] at hturn
    · next hdel =>
      exact .unknown hl hs ⟨⟨hnewline, by simpa using hspace, hcomment⟩, hletter, hdigit, hquote⟩
        hop (by simpa using hdel)

/-- A step before the end of the text takes a turn, or the reading is given up. -/
theorem step_steps (hne : s.rest ≠ []) : Steps s s.step := by
  unfold step
  split
  · next hl => exact stepLineStart_steps hl hne
  · next hl =>
    split
    · next hr => exact absurd hr hne
    · next c rest hr => exact stepInLine_steps (by simpa using hl) hr

theorem turn_of_step (hne : s.rest ≠ []) (h : s.step = .ok s') : Turn s s' := by
  have hsteps := step_steps hne
  rwa [h] at hsteps

theorem refusal_of_step {e : LexError} (hne : s.rest ≠ []) (h : s.step = .error e) :
    Refusal s e := by
  have hsteps := step_steps hne
  rwa [h] at hsteps

/-! ### Readings -/

/-- Reading goes on from one scan to the next. -/
def Next (s s' : Scan) : Prop := s.rest ≠ [] ∧ s.step = .ok s'

/-- Reading leads from one scan to another. -/
abbrev Reads : Scan → Scan → Prop := Relation.ReflTransGen Next

theorem Next.turn (h : Next s s') : Turn s s' := turn_of_step h.1 h.2

theorem IsWord.length_pos {kind : TokenKind} {cs : List Char} (h : IsWord kind cs) :
    0 < cs.length := by
  obtain ⟨c, rest, rfl, -⟩ := h.starts
  exact Nat.succ_pos _

/-- A turn takes text or settles the indentation of a line. -/
theorem Turn.measure_lt (h : Turn s s') : s'.view.measure < s.view.measure := by
  simp only [View.measure, view]
  cases h with
  | @void taken rest hl hs hvoid =>
    have := List.length_pos_iff.mpr hvoid.nonempty
    simp only [passOver, hs, hl, if_true, List.length_append]
    omega
  | @deeper lead more c hline _ =>
    simp only [opened, mark, settled, passOver, hline.text, hline.lineStart, List.length_append]
    simp
  | @back lead more c inner outer hline _ _ _ =>
    simp only [closed, settled, passOver, hline.text, hline.lineStart, List.length_append]
    simp
  | newline hl _ hs =>
    simp only [take, passOver, hs, hl, List.length_cons]
    simp
    omega
  | space hl hs _ =>
    simp only [passOver, hs, hl, List.length_cons]
    omega
  | @comment body rest hl hs _ _ =>
    simp only [passOver, hs, hl, List.length_cons, List.length_append]
    omega
  | @word kind taken rest hl hs hword =>
    have := IsWord.length_pos hword
    simp only [take, passOver, hs, hl, List.length_append]
    omega

theorem run_of_end (hend : s.rest = []) (n : Nat) : run n s = .ok s := by
  cases n with
  | zero => rfl
  | succ n => rw [run, if_pos (by simp [hend])]

theorem run_succ_ok (hne : s.rest ≠ []) (h : s.step = .ok s') (n : Nat) :
    run (n + 1) s = run n s' := by
  rw [run, if_neg (by simpa using hne), h]

theorem run_succ_error (hne : s.rest ≠ []) {e : LexError} (h : s.step = .error e) (n : Nat) :
    run (n + 1) s = .error e := by
  rw [run, if_neg (by simpa using hne), h]

/-- With enough fuel, a run is a reading up to the end of the text, or up to where it is given up.
-/
theorem run_reads {n : Nat} (hn : s.view.measure ≤ n) :
    (∃ s', run n s = .ok s' ∧ Reads s s' ∧ s'.rest = []) ∨
      ∃ s' e, run n s = .error e ∧ Reads s s' ∧ s'.rest ≠ [] ∧ s'.step = .error e := by
  induction n generalizing s with
  | zero =>
    have hrest : s.rest = [] := by
      simp only [View.measure, view] at hn
      exact List.length_eq_zero_iff.mp (by omega)
    exact .inl ⟨s, rfl, .refl, hrest⟩
  | succ n ih =>
    by_cases hne : s.rest = []
    · exact .inl ⟨s, run_of_end hne _, .refl, hne⟩
    · cases hstep : s.step with
      | error e => exact .inr ⟨s, e, run_succ_error hne hstep n, .refl, hne, hstep⟩
      | ok s₁ =>
        have hnext : Next s s₁ := ⟨hne, hstep⟩
        have hlt := hnext.turn.measure_lt
        rw [run_succ_ok hne hstep]
        rcases ih (s := s₁) (by omega) with ⟨s', hrun, hreads, hend⟩ |
          ⟨s', e, hrun, hreads, hrest, hfail⟩
        · exact .inl ⟨s', hrun, .head hnext hreads, hend⟩
        · exact .inr ⟨s', e, hrun, .head hnext hreads, hrest, hfail⟩

/-- A reading does not branch. -/
theorem reads_end_unique {a b : Scan} (ha : Reads s a) (hb : Reads s b)
    (hstop : ∀ c, ¬ Next a c) (hstop' : ∀ c, ¬ Next b c) : a = b := by
  induction ha using Relation.ReflTransGen.head_induction_on with
  | refl =>
    rcases Relation.ReflTransGen.cases_head hb with h | ⟨c, hc, -⟩
    · exact h
    · exact absurd hc (hstop c)
  | head hnext _ ih =>
    rcases Relation.ReflTransGen.cases_head hb with rfl | ⟨c, hc, hcb⟩
    · exact absurd hnext (hstop' _)
    · have heq := hnext.2.symm.trans hc.2
      cases heq
      exact ih hcb

theorem not_next_of_end (h : s.rest = []) (c : Scan) : ¬ Next s c := fun hc => hc.1 h

theorem not_next_of_error {e : LexError} (h : s.step = .error e) (c : Scan) : ¬ Next s c := by
  intro hc
  cases h.symm.trans hc.2

/-! ### The end of a text -/

/-- What the end of the text adds for the levels that are open. -/
def closing (s : Scan) : List Token :=
  List.replicate s.indents.length ⟨.dedent, "", s.pos⟩ ++ [⟨.stop, "", s.pos⟩]

/-- At the end a line is ended unless a bracket is open. -/
theorem finish_ends (s : Scan) : ∃ ends,
    (ends = [⟨.newline, "", s.pos⟩] ∧ s.depth = 0 ∨
      ends = [] ∧ (s.depth = 0 → ∀ t ∈ s.tokens.head?, t.kind = .newline)) ∧
    s.finish = (s.tokens.reverse ++ ends) ++ s.closing := by
  unfold finish closing
  dsimp only
  split_ifs with hneeds
  · refine ⟨[⟨.newline, "", s.pos⟩], .inl ⟨rfl, ?_⟩, ?_⟩
    · split at hneeds
      · cases hneeds
      · simpa using (Bool.and_eq_true_iff.mp hneeds).1
    · rw [mark, marks_tokens]
      simp [mark]
  · refine ⟨[], .inr ⟨rfl, ?_⟩, ?_⟩
    · intro hd t ht
      split at hneeds
      · next he =>
        rw [he] at ht
        cases ht
      · next last tokens he =>
        rw [he] at ht
        obtain rfl := Option.some.inj ht
        simpa [hd] using hneeds
    · rw [mark, marks_tokens]
      simp

theorem start_measure (cs : List Char) : (start cs).view.measure = 2 * cs.length + 1 := rfl

end Scan

open Scan

/-- A source is read if reading leads to its end. -/
theorem tokenize_ok_iff {source : String} {ts : List Token} :
    tokenize source = .ok ts ↔
      ∃ s, Reads (start source.toList) s ∧ s.rest = [] ∧ s.finish = ts := by
  unfold tokenize
  dsimp only
  rcases run_reads (s := start source.toList) (Nat.le_refl _) with
    ⟨s, hrun, hreads, hend⟩ | ⟨s, e, hrun, hreads, hne, hfail⟩
  · rw [start_measure] at hrun
    rw [hrun]
    constructor
    · rintro ⟨⟩
      exact ⟨s, hreads, hend, rfl⟩
    · rintro ⟨s', hreads', hend', rfl⟩
      rw [reads_end_unique hreads hreads' (not_next_of_end hend) (not_next_of_end hend')]
  · rw [start_measure] at hrun
    rw [hrun]
    constructor
    · rintro ⟨⟩
    · rintro ⟨s', hreads', hend', -⟩
      rw [reads_end_unique hreads hreads' (not_next_of_error hfail) (not_next_of_end hend')] at hne
      exact absurd hend' hne

/-- A source is refused if reading leads to where it is given up. -/
theorem tokenize_error_iff {source : String} {e : LexError} :
    tokenize source = .error e ↔
      ∃ s, Reads (start source.toList) s ∧ s.rest ≠ [] ∧ s.step = .error e := by
  unfold tokenize
  dsimp only
  rcases run_reads (s := start source.toList) (Nat.le_refl _) with
    ⟨s, hrun, hreads, hend⟩ | ⟨s, e', hrun, hreads, hne, hfail⟩
  · rw [start_measure] at hrun
    rw [hrun]
    constructor
    · rintro ⟨⟩
    · rintro ⟨s', hreads', hne', hfail'⟩
      rw [reads_end_unique hreads hreads' (not_next_of_end hend) (not_next_of_error hfail')] at hend
      exact absurd hend hne'
  · rw [start_measure] at hrun
    rw [hrun]
    constructor
    · rintro ⟨⟩
      exact ⟨s, hreads, hne, hfail⟩
    · rintro ⟨s', hreads', hne', hfail'⟩
      obtain rfl := reads_end_unique hreads hreads' (not_next_of_error hfail)
        (not_next_of_error hfail')
      rw [hfail] at hfail'
      cases hfail'
      rfl

/-- What the start satisfies and every turn keeps holds wherever reading leads. -/
theorem reads_keeps {I : Scan → Prop} {s s' : Scan} (hs : I s) (h : Reads s s')
    (hturn : ∀ a b, I a → Turn a b → I b) : I s' := by
  induction h with
  | refl => exact hs
  | tail _ hnext ih => exact hturn _ _ ih hnext.turn

/-! ### Operators -/

/-- The tokens so far spell the operators of the language. -/
def Scan.OperatorsSpelled (s : Scan) : Prop :=
  ∀ t ∈ s.tokens, t.kind = .operator → t.lexeme.toList ∈ operators

theorem turn_operatorsSpelled {s s' : Scan} (hs : s.OperatorsSpelled) (h : Turn s s') :
    s'.OperatorsSpelled := by
  cases h with
  | void | space | comment => exact hs
  | deeper | newline => exact List.forall_mem_cons.mpr ⟨nofun, hs⟩
  | back =>
    refine List.forall_mem_append.mpr ⟨fun t ht hk => ?_, hs⟩
    rw [List.eq_of_mem_replicate ht] at hk
    cases hk
  | word hl hrest hword =>
    refine List.forall_mem_cons.mpr ⟨fun hk => ?_, hs⟩
    rw [String.toList_ofList]
    exact hword.spelled hk

theorem operators_spelled {source : String} {ts : List Token} (h : tokenize source = .ok ts) :
    ∀ t ∈ ts, t.kind = .operator → t.lexeme.toList ∈ operators := by
  obtain ⟨s, hreads, -, rfl⟩ := tokenize_ok_iff.mp h
  have hs : s.OperatorsSpelled :=
    reads_keeps (I := Scan.OperatorsSpelled) (fun t ht => absurd ht List.not_mem_nil) hreads
      fun _ _ => turn_operatorsSpelled
  obtain ⟨ends, hends, hfinish⟩ := s.finish_ends
  rw [hfinish]
  intro t ht hk
  rcases List.mem_append.mp ht with ht | ht
  · rcases List.mem_append.mp ht with ht | ht
    · exact hs t (List.mem_reverse.mp ht) hk
    · rcases hends with ⟨rfl, -⟩ | ⟨rfl, -⟩
      · rw [List.mem_singleton.mp ht] at hk
        cases hk
      · cases ht
  · rcases List.mem_append.mp ht with ht | ht
    · rw [List.eq_of_mem_replicate ht] at hk
      cases hk
    · rw [List.mem_singleton.mp ht] at hk
      cases hk

end Offside.Lexer
