import Offside.Proofs.Lexer.Indentation
import Offside.Proofs.Lexer.Slices
import Offside.Proofs.Lexer.Within

/-!
One text after another. The levels that the first text leaves open are closed where the other
begins, unless that goes on with an indented line; apart from that the tokens are those of the first
text and then those of the other, further down.
-/

namespace Offside.Lexer

/-- The line has something to be read, which is neither a comment nor behind a carriage return. -/
def hasContent (line : List Char) : Bool :=
  match line.dropWhile isIndentation with
  | [] => false
  | c :: _ => c != '\r' && c != '#'

/-- The first line of a text that has content. -/
def firstLine? (text : List Char) : Option (List Char) := (text.splitOn '\n').find? hasContent

def firstWord (line : List Char) : String :=
  String.ofList ((line.dropWhile isSpace).takeWhile Text.isWordChar)

/-- The words that go on with a statement after its block. -/
def branchWords : List String := ["elif", "else"]

/-- A token that does not go on with a statement after its block. -/
def Opens (t : Token) : Prop := t.kind = .keyword → t.lexeme ∉ branchWords

/-- A text whose first line with content begins a statement on the outermost level. -/
def StartsAfresh (text : List Char) : Prop :=
  ∀ line ∈ firstLine? text, line.takeWhile isIndentation = [] ∧ firstWord line ∉ branchWords

instance (text : List Char) : Decidable (StartsAfresh text) :=
  inferInstanceAs (Decidable (∀ line ∈ firstLine? text, _))

variable {E : Surround} {line rest lead more text : List Char} {c : Char}

/-! ### Lines -/

theorem firstLine_line (h : OneLine line) :
    firstLine? line = if hasContent line = true then some line else none := by
  unfold firstLine?
  rw [List.splitOn_eq_singleton h, List.find?_cons]
  split <;> simp_all

theorem firstLine_append (h : OneLine line) (rest : List Char) :
    firstLine? (line ++ '\n' :: rest) =
      if hasContent line = true then some line else firstLine? rest := by
  unfold firstLine?
  rw [List.splitOn_append_cons_self, List.splitOn_eq_singleton h, List.singleton_append,
    List.find?_cons]
  split <;> simp_all

theorem dropWhile_indentation (h : IsIndentation lead) (cs : List Char) :
    (lead ++ cs).dropWhile isIndentation = cs.dropWhile isIndentation :=
  List.dropWhile_append_of_pos h

theorem hasContent_of_content (h : IsIndentation lead) (hc : IsContent c) :
    hasContent (lead ++ c :: more) = true := by
  unfold hasContent
  rw [dropWhile_indentation h, List.dropWhile_cons, hc.indentation]
  simp [hc.carriage, hc.comment]

theorem not_hasContent (h : IsIndentation lead) {body : List Char}
    (hbody : ∀ c ∈ body.head?, c = '\r' ∨ c = '#') : hasContent (lead ++ body) = false := by
  unfold hasContent
  rw [dropWhile_indentation h]
  cases body with
  | nil => rfl
  | cons c body =>
    rcases hbody c rfl with rfl | rfl <;> rfl

/-- A line without content has no part in what the first line with content is. -/
theorem Void.firstLine {taken : List Char} (h : Void taken rest) :
    firstLine? (taken ++ rest) = firstLine? rest := by
  obtain ⟨lead, body, ending, rfl, hlead, hbody, hhead, hend⟩ := h.parts
  have hone : OneLine (lead ++ body) := hlead.oneLine.append hbody
  have hnone : ¬ hasContent (lead ++ body) = true := by simp [not_hasContent hlead hhead]
  rw [← List.append_assoc lead]
  rcases hend with rfl | ⟨rfl, rfl⟩
  · rw [List.append_assoc, List.singleton_append, firstLine_append hone, if_neg hnone]
  · rw [List.append_nil, List.append_nil, firstLine_line hone, if_neg hnone]
    rfl

theorem Void.atVoid {taken : List Char} (h : Void taken rest) : AtVoid (taken ++ rest) := by
  obtain ⟨lead, body, ending, rfl, hlead, -, hhead, hend⟩ := h.parts
  unfold AtVoid
  rw [List.append_assoc, dropWhile_indentation hlead]
  cases body with
  | nil =>
    rcases hend with rfl | ⟨rfl, rfl⟩
    · rintro c hc
      obtain rfl : '\n' = c := Option.some.inj hc
      exact .inr (.inl rfl)
    · rintro c ⟨⟩
  | cons d body =>
    have hd := hhead d rfl
    have hindentation : isIndentation d = false := by
      rcases hd with rfl | rfl <;> rfl
    rintro c hc
    rw [List.append_assoc, List.cons_append, List.dropWhile_cons, hindentation] at hc
    obtain rfl : d = c := Option.some.inj hc
    exact hd.imp_right .inr

/-- The first line with content is the one that is at hand. -/
theorem firstLine_content (h : IsIndentation lead) (hc : IsContent c) (more : List Char) :
    ∃ tail, firstLine? (lead ++ c :: more) = some (lead ++ c :: more.takeWhile (!isLineEnd ·)) ∧
      more = more.takeWhile (!isLineEnd ·) ++ tail ∧ ∀ d ∈ tail.head?, d = '\n' := by
  have hone : OneLine (lead ++ c :: more.takeWhile (!isLineEnd ·)) :=
    h.oneLine.append (.cons hc.newline (Scan.oneLine_takeWhile more))
  have hcontent : hasContent (lead ++ c :: more.takeWhile (!isLineEnd ·)) = true :=
    hasContent_of_content h hc
  have hsplit : more = more.takeWhile (!isLineEnd ·) ++ more.dropWhile (!isLineEnd ·) :=
    List.takeWhile_append_dropWhile.symm
  have hhead := Scan.head_dropWhile_line more
  refine ⟨more.dropWhile (!isLineEnd ·), ?_, hsplit, hhead⟩
  generalize more.takeWhile (!isLineEnd ·) = body at hone hcontent hsplit ⊢
  generalize more.dropWhile (!isLineEnd ·) = tail at hsplit hhead
  subst hsplit
  cases tail with
  | nil => rw [List.append_nil, firstLine_line hone, if_pos hcontent]
  | cons d tail =>
    obtain rfl : d = '\n' := hhead d rfl
    rw [← List.cons_append, ← List.append_assoc, firstLine_append hone, if_pos hcontent]

theorem newline_mem (h : AtMargin text) (hne : text ≠ []) : '\n' ∈ text := by
  rcases List.eq_nil_or_concat' text with rfl | ⟨front, c, rfl⟩
  · exact absurd rfl hne
  · obtain rfl : c = '\n' := h c (by simp)
    simp

theorem atMargin_suffix (h : AtMargin text) (hrest : rest <:+ text) : AtMargin rest := by
  obtain ⟨front, rfl⟩ := hrest
  intro c hc
  refine h c ?_
  rw [List.getLast?_append, Option.mem_def.mp hc]
  rfl

namespace Scan

variable {s s' : Scan}

/-! ### The end of the first text -/

/-- An open bracket is in the line of the last token. -/
structure Bracketed (s : Scan) : Prop where
  outside : s.lineStart = true → s.depth = 0
  inside : 0 < s.depth → ∃ t, s.tokens.head? = some t ∧ t.kind.OfLine
  ended : s.rest = [] → s.lineStart = true ∨ 0 < s.depth

theorem turn_bracketed (h : s.Bracketed) (hm : AtMargin s.rest) (hne : s.rest ≠ [])
    (ht : Turn s s') : s'.Bracketed := by
  have hinside {p : Prop} (hl : false = true) : p := absurd hl Bool.false_ne_true
  cases ht with
  | void hl _ _ => exact ⟨h.outside, h.inside, fun _ => .inl hl⟩
  | deeper hline _ | back hline _ _ _ =>
    have hd := h.outside hline.lineStart
    exact ⟨hinside, fun hpos => absurd hd (Nat.ne_of_gt hpos), nofun⟩
  | newline _ hd _ =>
    exact ⟨fun _ => hd, fun hpos => absurd hd (Nat.ne_of_gt hpos), fun _ => .inl rfl⟩
  | @space c rest hl hs hc =>
    refine ⟨h.outside, h.inside, fun hend => ?_⟩
    obtain rfl : rest = [] := hend
    have hlast : c = '\n' := hm c (by rw [hs]; rfl)
    rcases hc with hspace | ⟨-, hd⟩
    · rw [hlast] at hspace
      cases hspace
    · exact .inr hd
  | @comment body rest hl hs hone _ =>
    refine ⟨h.outside, h.inside, fun hend => ?_⟩
    obtain rfl : rest = [] := hend
    have hone' : OneLine ('#' :: (body ++ [])) := .cons (by decide) (by simpa using hone)
    rw [← hs] at hone'
    exact absurd (newline_mem hm hne) hone'
  | @word kind taken rest hl hs hword =>
    refine ⟨fun hl' => hinside (hl.symm.trans hl'), fun _ => ⟨_, rfl, hword.ofLine⟩, fun hend => ?_⟩
    obtain rfl : rest = [] := hend
    have hone := hword.oneLine
    rw [List.append_nil] at hs
    rw [← hs] at hone
    exact absurd (newline_mem hm hne) hone

theorem reads_suffix (h : Reads (start text) s) : s.rest <:+ text := by
  obtain ⟨before, hplaced⟩ := reads_placed h
  exact ⟨before, hplaced.whole.symm⟩

/-- The text that comes before another is read as it is read alone. -/
theorem reads_before (hm : AtMargin text) (after : List Char) (h : Reads (start text) s) :
    s.Bracketed ∧ Reads (start (text ++ after)) (s.within ⟨0, [], [], after⟩) := by
  induction h with
  | refl =>
    refine ⟨⟨fun _ => rfl, nofun, fun _ => .inl rfl⟩, ?_⟩
    rw [show (start text).within ⟨0, [], [], after⟩ = start (text ++ after) by
      simp [within, start]]
  | @tail a b hreads hnext ih =>
    obtain ⟨hbracketed, hwithin⟩ := ih
    have ha := atMargin_suffix hm (reads_suffix hreads)
    refine ⟨turn_bracketed hbracketed ha hnext.1 hnext.turn, hwithin.tail ?_⟩
    exact next_within hnext (.inr (newline_mem ha hnext.1)) (.inl rfl)

/-- The last line is open. -/
def pending (s : Scan) : Bool := s.depth == 0 && s.tokens.head?.any (·.kind != .newline)

theorem finish_pending (s : Scan) : s.finish =
    s.tokens.reverse ++ (if s.pending then [⟨.newline, "", s.pos⟩] else []) ++ s.closing := by
  obtain ⟨rest, pos, indents, depth, lineStart, tokens⟩ := s
  unfold finish closing pending
  cases tokens with
  | nil =>
    dsimp only
    rw [marks_tokens]
    simp [mark]
  | cons t tokens =>
    dsimp only [List.head?_cons, Option.any_some]
    rw [marks_tokens]
    by_cases hopen : (depth == 0 && t.kind != .newline) = true
    · simp only [if_pos hopen]
      simp_all [mark]
    · simp only [if_neg hopen]
      simp_all [mark]

/-- Where no line is open, the end of the text adds no end of a line. -/
theorem finish_ended (h : ∀ t ∈ s.tokens.head?, t.kind = .newline) :
    s.finish = s.tokens.reverse ++ s.closing := by
  have hpending : s.pending = false := by
    unfold pending
    cases htokens : s.tokens with
    | nil => simp
    | cons t tokens => simp [h t (by rw [htokens]; rfl)]
  rw [finish_pending, hpending]
  simp

/-- The position after a text that ends in the end of a line. -/
theorem after_margin (hm : AtMargin text) :
    Position.start.after text = Position.start.lower (text.count '\n') := by
  rw [Position.start_after]
  rcases List.eq_nil_or_concat' text with rfl | ⟨front, c, rfl⟩
  · rfl
  · obtain rfl : c = '\n' := hm c (by simp)
    simp [Position.lower, Position.start]

/-! ### Up to the first line with content -/

/-- Lines without content are passed over, whatever came before. -/
theorem reads_void (hafter : E.after = []) (hl : s.lineStart = true) : ∃ s' taken rest,
    s' = s.passOver taken rest ∧ Reads s s' ∧ Reads (s.within E) (s'.within E) ∧
      firstLine? rest = firstLine? s.rest ∧ (rest = [] ∨ ∃ lead c more, s'.AtLine lead c more) := by
  induction hn : s.rest.length using Nat.strong_induction_on generalizing s with
  | _ n ih =>
    by_cases hne : s.rest = []
    · exact ⟨s, [], s.rest, rfl, .refl, .refl, rfl, .inl hne⟩
    · have here {lead more : List Char} {c : Char} (h : s.AtLine lead c more) : ∃ s' taken rest,
          s' = s.passOver taken rest ∧ Reads s s' ∧ Reads (s.within E) (s'.within E) ∧
            firstLine? rest = firstLine? s.rest ∧
            (rest = [] ∨ ∃ lead c more, s'.AtLine lead c more) :=
        ⟨s, [], s.rest, rfl, .refl, .refl, rfl, .inr ⟨lead, c, more, h⟩⟩
      have hsteps := step_steps hne
      cases hstep : s.step with
      | error e =>
        rw [hstep] at hsteps
        cases hsteps with
        | dedent hline _ _ _ _ => exact here hline
        | unterminated hl' | unknown hl' => cases hl.symm.trans hl'
      | ok s₁ =>
        rw [hstep] at hsteps
        cases hsteps with
        | @void taken rest _ hs hvoid =>
          have hlen : rest.length < n := by
            rw [← hn, hs, List.length_append]
            have := List.length_pos_iff.mpr hvoid.nonempty
            omega
          obtain ⟨s', taken', rest', rfl, hreads, hwithin, hfirst, hend⟩ :=
            ih rest.length hlen (s := s.passOver taken rest) hl rfl
          have hnext : Next s (s.passOver taken rest) := ⟨hne, hstep⟩
          have hnext' := next_within (E := E) hnext (.inl hafter)
            (.inr ⟨hl, hs ▸ hvoid.atVoid⟩)
          refine ⟨_, taken ++ taken', rest', passOver_passOver _ _ _ _ _, .head hnext hreads,
            .head hnext' hwithin, ?_, hend⟩
          rw [hfirst, hs, hvoid.firstLine]
          rfl
        | deeper hline _ | back hline _ _ _ => exact here hline
        | newline hl' _ _ | space hl' _ _ | comment hl' _ _ _ | word hl' _ _ =>
          cases hl.symm.trans hl'

/-! ### The first line with content -/

/-- A line on the outermost level closes every other. -/
theorem AtLine.outermost (h : s.AtLine [] c more) (hpos : ∀ w ∈ s.indents, 0 < w) :
    s.step = .ok (s.settled.closed s.indents.length []) := by
  have hskip : s.passOver [] (c :: more) = s := by
    rw [passOver, ← show s.rest = c :: more from h.text]
    rfl
  have hsettles := h.settles
  generalize s.step = r at hsettles
  cases hsettles with
  | deeper hlt => exact absurd hlt (Nat.not_lt_zero _)
  | @back inner outer hsplit _ htop =>
    cases outer with
    | nil => rw [hskip, hsplit, List.append_nil]
    | cons w outer =>
      have hw := hpos w (by rw [hsplit]; simp)
      exact absurd htop (Nat.ne_of_gt hw)
  | refused _ _ _ hlow => exact absurd hlow (Nat.not_lt_zero _)

/-- What is around a text once its first line has closed the levels of the text before. -/
def closedAround (E : Surround) (s : Scan) : Surround :=
  ⟨E.lines, [], List.replicate E.indents.length ⟨.dedent, "", s.pos.lower E.lines⟩ ++ E.tokens,
    E.after⟩

theorem AtLine.outermost_within (h : s.AtLine [] c more) (hindents : s.indents = [])
    (htokens : s.tokens = []) (hpos : ∀ w ∈ E.indents, 0 < w) :
    s.step = .ok s.settled ∧ (s.within E).step = .ok (s.settled.within (s.closedAround E)) := by
  have hline : (s.within E).AtLine [] c (more ++ E.after) := by
    refine ⟨h.lineStart, ?_, h.lead, h.content⟩
    rw [within, h.text]
    rfl
  have hclosed := h.outermost (by simp [hindents])
  have hclosed' := hline.outermost (by simpa [within, hindents] using hpos)
  rw [hclosed, hclosed']
  simp [closed, settled, within, closedAround, hindents, htokens]

theorem reads_within (hindents : E.indents = []) (hafter : E.after = []) (h : Reads s s') :
    Reads (s.within E) (s'.within E) :=
  h.lift (within E) fun _ _ hnext => next_within hnext (.inl hafter) (.inl hindents)

/-- What the end of the text adds to the tokens of the longer text. -/
theorem finish_within (hindents : E.indents = []) : ∃ gap, (∀ t ∈ gap, t.kind = .newline) ∧
    (s.within E).finish = E.tokens.reverse ++ (gap ++ s.finish.map (Token.lower E.lines)) := by
  have hclosing : (s.within E).closing = s.closing.map (Token.lower E.lines) := by
    simp [closing, within, hindents, Token.lower]
  rw [finish_pending, finish_pending, hclosing]
  cases htokens : s.tokens with
  | nil =>
    have hpending : s.pending = false := by simp [pending, htokens]
    rw [hpending]
    refine ⟨if (s.within E).pending then [⟨.newline, "", (s.within E).pos⟩] else [], ?_, ?_⟩
    · split <;> simp
    · simp [within, htokens]
  | cons t tokens =>
    have hpending : (s.within E).pending = s.pending := by simp [pending, within, htokens]
    refine ⟨[], List.forall_mem_nil _, ?_⟩
    rw [hpending]
    cases s.pending <;> simp [within, htokens, Token.lower]

/-! ### The first token -/

/-- No token has been read yet, and the first one will be no branch; or it has been, and is none. -/
def Fresh (s : Scan) : Prop :=
  (s.tokens = [] ∧ s.lineStart = false ∧ s.depth = 0 ∧ firstWord s.rest ∉ branchWords) ∨
    ∃ t, s.tokens.getLast? = some t ∧ Opens t

theorem fresh_token {t : Token} (h : s.tokens = []) (ht : s'.tokens = t :: s.tokens)
    (hk : Opens t) : s'.Fresh :=
  .inr ⟨t, by rw [ht, h]; rfl, hk⟩

theorem firstWord_void {cs : List Char} (h : ∀ c ∈ cs.head?, c = '\n') :
    firstWord cs ∉ branchWords := by
  cases cs with
  | nil => decide
  | cons c cs =>
    obtain rfl : c = '\n' := h c rfl
    have hword : firstWord ('\n' :: cs) = "" := rfl
    rw [hword]
    decide

/-- The first word of a line is the first one of what the line begins. -/
theorem firstWord_line (line : List Char) {tail : List Char} (h : ∀ c ∈ tail.head?, c = '\n') :
    firstWord (line ++ tail) = firstWord line := by
  have hspace : tail.dropWhile isSpace = tail := by
    cases tail with
    | nil => rfl
    | cons c tail =>
      obtain rfl : c = '\n' := h c rfl
      rfl
  have hword : tail.takeWhile Text.isWordChar = [] := by
    cases tail with
    | nil => rfl
    | cons c tail =>
      obtain rfl : c = '\n' := h c rfl
      rfl
  have hsplit : (line ++ tail).dropWhile isSpace = line.dropWhile isSpace ++ tail := by
    rw [List.dropWhile_append]
    split
    · next hnil => rw [List.isEmpty_iff.mp hnil, hspace, List.nil_append]
    · rfl
  unfold firstWord
  rw [hsplit, List.takeWhile_append, hword, List.append_nil]
  split
  · next hlen => rw [(List.takeWhile_prefix _).eq_of_length hlen]
  · rfl

theorem firstWord_space (hc : isSpace c = true) (cs : List Char) :
    firstWord (c :: cs) = firstWord cs := by
  unfold firstWord
  rw [List.dropWhile_cons, if_pos hc]

theorem letter_isWordChar (hc : Text.isLetter c = true) : Text.isWordChar c = true := by
  unfold Text.isLetter at hc
  unfold Text.isWordChar Text.isAlphanumeric
  split
  · next hlow =>
    rw [if_pos hlow] at hc
    simp [Char.isAlphanum, hc]
  · next hlow =>
    rw [if_neg hlow] at hc
    simp [hc]

theorem firstWord_name (hc : Text.isLetter c = true ∨ c = '_') (cs : List Char) :
    firstWord (c :: cs) = String.ofList (c :: cs.takeWhile Text.isWordChar) := by
  have hword : Text.isWordChar c = true := by
    rcases hc with hc | rfl
    · exact letter_isWordChar hc
    · rfl
  unfold firstWord
  rw [List.dropWhile_cons, (name_inner hc).space, if_neg Bool.false_ne_true, List.takeWhile_cons,
    if_pos hword]

theorem turn_new (h : Turn s s') : ∃ new, s'.tokens = new ++ s.tokens := by
  cases h with
  | void | space | comment => exact ⟨[], rfl⟩
  | deeper | newline | word => exact ⟨[_], rfl⟩
  | back => exact ⟨_, rfl⟩

/-- The first token of a line is no branch if the first word is none. -/
theorem stepInLine_fresh {cs : List Char} (htokens : s.tokens = []) (hl : s.lineStart = false)
    (hd : s.depth = 0) (hword : firstWord (c :: cs) ∉ branchWords)
    (h : s.stepInLine c cs = .ok s') : s'.Fresh := by
  unfold stepInLine at h
  split at h
  · cases h
    exact fresh_token (t := ⟨.newline, String.ofList [c], s.pos⟩) htokens rfl nofun
  split at h
  · next hspace =>
    cases h
    rw [firstWord_space hspace] at hword
    exact .inl ⟨htokens, hl, hd, hword⟩
  split at h
  · cases h
    exact .inl ⟨htokens, hl, hd, firstWord_void (head_dropWhile_line _)⟩
  split at h
  · next hname =>
    cases h
    rw [firstWord_name hname] at hword
    exact fresh_token htokens rfl fun _ => hword
  split at h
  · cases h
    refine fresh_token htokens rfl fun hk => ?_
    rcases splitNumber_kind (c :: cs) with hkind | hkind
    · cases hkind.symm.trans hk
    · cases hkind.symm.trans hk
  split at h
  · split at h
    · next body after _ =>
      cases h
      exact fresh_token (t := ⟨.string, String.ofList (c :: body), s.pos⟩) htokens rfl nofun
    · cases h
  split at h
  · next op _ =>
    cases h
    exact fresh_token (t := ⟨.operator, String.ofList op, s.pos⟩) htokens rfl nofun
  · split at h
    · cases h
      exact fresh_token (t := ⟨.delimiter, String.ofList [c], s.pos⟩) htokens rfl nofun
    · cases h

theorem step_fresh (h : s.Fresh) (hnext : Next s s') : s'.Fresh := by
  rcases h with ⟨htokens, hl, hd, hword⟩ | ⟨t, ht, hopens⟩
  · obtain ⟨c, cs, hrest⟩ := List.exists_cons_of_ne_nil hnext.1
    have hstep := hnext.2
    rw [step_eq hl hrest] at hstep
    exact stepInLine_fresh htokens hl hd (hrest ▸ hword) hstep
  · obtain ⟨new, hnew⟩ := turn_new hnext.turn
    refine .inr ⟨t, ?_, hopens⟩
    rw [hnew, List.getLast?_append, ht]
    rfl

theorem reads_fresh (hs : s.Fresh) (h : Reads s s') : s'.Fresh := by
  induction h with
  | refl => exact hs
  | tail _ hnext ih => exact step_fresh ih hnext

end Scan

open Scan

variable {first second : String} {ts us vs : List Token} {k : Nat}

/-- The last line has no end, since a bracket is open in it. -/
def Ajar (ts : List Token) : Prop :=
  ∃ front t n p, t.kind.OfLine ∧
    ts = front ++ t :: (List.replicate n ⟨.dedent, "", p⟩ ++ [⟨.stop, "", p⟩])

/-- The tokens `vs` of two texts, of which the one has the tokens `ts` and the other `us`. What the
first one leaves open is closed where the other begins. -/
def Joined (k : Nat) (ts us vs : List Token) : Prop :=
  ∃ body n p q gap, ts = body ++ (List.replicate n ⟨.dedent, "", p⟩ ++ [⟨.stop, "", p⟩]) ∧
    vs = body ++ (List.replicate n ⟨.dedent, "", q⟩ ++ (gap ++ us.map (Token.lower k))) ∧
    ∀ t ∈ gap, t.kind = .newline

/-- A text that ends in the end of a line leaves no line open, unless a bracket is open. -/
theorem tokenize_ends (hm : AtMargin first.toList) (h : tokenize first = .ok ts) :
    Ajar ts ∨ ∃ s, Reads (start first.toList) s ∧ s.rest = [] ∧ s.lineStart = true ∧
      ts = s.tokens.reverse ++ s.closing := by
  obtain ⟨s, hreads, hend, rfl⟩ := tokenize_ok_iff.mp h
  have hbracketed := (reads_before hm [] hreads).1
  by_cases hd : 0 < s.depth
  · left
    obtain ⟨t, ht, hline⟩ := hbracketed.inside hd
    obtain ⟨front, hfront⟩ := List.head?_eq_some_iff.mp ht
    refine ⟨front.reverse, t, s.indents.length, s.pos, hline, ?_⟩
    have hpending : s.pending = false := by simp [pending, Nat.ne_of_gt hd]
    rw [finish_pending, hpending, hfront]
    simp [closing]
  · right
    have hl := (hbracketed.ended hend).resolve_right hd
    exact ⟨s, hreads, hend, hl, finish_ended ((reads_stacked hreads).ended hl)⟩

/-- What is around a text that comes after another one. -/
def around (first : List Char) (s : Scan) : Surround :=
  ⟨first.count '\n', s.indents, s.tokens, []⟩

/-- At the end of the first text the other one begins. -/
theorem reads_seam {s : Scan} (hm : AtMargin first.toList) (hreads : Reads (start first.toList) s)
    (hend : s.rest = []) (hl : s.lineStart = true) :
    Reads (start (first ++ second).toList)
      ((start second.toList).within (around first.toList s)) := by
  obtain ⟨-, hbefore⟩ := reads_before hm second.toList hreads
  obtain ⟨before, hplaced⟩ := reads_placed hreads
  have hwhole := hplaced.whole
  rw [hend, List.append_nil] at hwhole
  have hpos : s.pos = Position.start.lower (first.toList.count '\n') := by
    rw [hplaced.pos, ← hwhole, after_margin hm]
  have htokens : s.tokens.map (Token.lower 0) = s.tokens := List.map_id'' Token.lower_zero s.tokens
  have hseam : s.within ⟨0, [], [], second.toList⟩ =
      (start second.toList).within (around first.toList s) := by
    simp [within, start, around, hend, hl, hpos, htokens, (reads_stacked hreads).outside hl]
  rwa [hseam, ← String.toList_append] at hbefore

/-- Nothing is read from a text without content. -/
theorem joined_void {s x : Scan} (hstacked : s.Stacked) (hl : s.lineStart = true)
    (hindents : x.indents = []) (htokens : x.tokens = []) (first : List Char) :
    Joined (first.count '\n') (s.tokens.reverse ++ s.closing) x.finish
      (x.within (around first s)).finish := by
  have hfinish : x.finish = x.tokens.reverse ++ x.closing :=
    finish_ended fun t ht => by rw [htokens] at ht; cases ht
  have hfinish' : (x.within (around first s)).finish = _ :=
    finish_ended fun t ht => hstacked.ended hl t (by simpa [within, htokens, around] using ht)
  refine ⟨s.tokens.reverse, s.indents.length, s.pos, x.pos.lower (first.count '\n'), [], rfl, ?_,
    List.forall_mem_nil _⟩
  rw [hfinish, hfinish']
  simp [within, around, closing, htokens, hindents, Token.lower]

theorem joined_line {s x z : Scan} (first : List Char) :
    Joined (first.count '\n') (s.tokens.reverse ++ s.closing) z.finish
      (z.within (x.closedAround (around first s))).finish := by
  obtain ⟨gap, hgap, hfinish⟩ := finish_within (s := z) (E := x.closedAround (around first s)) rfl
  refine ⟨s.tokens.reverse, s.indents.length, s.pos, x.pos.lower (first.count '\n'), gap, rfl, ?_,
    hgap⟩
  rw [hfinish]
  simp [closedAround, around]

theorem finish_opens {s : Scan} (h : s.Fresh) : ∀ t ∈ s.finish.head?, Opens t := by
  rintro t ht
  rw [finish_pending] at ht
  rcases h with ⟨htokens, -⟩ | ⟨u, hu, hopens⟩
  · have hpending : s.pending = false := by simp [pending, htokens]
    rw [hpending, htokens] at ht
    have hkind := s.closing_kinds t (List.mem_of_mem_head? (by simpa using ht))
    intro hk
    rcases hkind with hkind | hkind <;> cases hkind.symm.trans hk
  · rw [List.append_assoc, List.head?_append, List.head?_reverse, hu] at ht
    obtain rfl := Option.some.inj ht
    exact hopens

/-- The first line with content begins a statement on the outermost level. -/
theorem Scan.AtLine.afresh {s : Scan} (h : s.AtLine lead c more) (hafresh : StartsAfresh text)
    (hfirst : firstLine? s.rest = firstLine? text) :
    lead = [] ∧ firstWord (c :: more) ∉ branchWords := by
  obtain ⟨tail, hline, hsplit, htail⟩ := firstLine_content h.lead h.content more
  rw [h.text, hline] at hfirst
  obtain ⟨hlead, hword⟩ := hafresh _ hfirst.symm
  have hstop : ∀ d ∈ (c :: more.takeWhile (!isLineEnd ·)).head?, isIndentation d = false := by
    simp [h.content.indentation]
  rw [(takeWhile_all h.lead hstop).1] at hlead
  subst hlead
  refine ⟨rfl, ?_⟩
  rwa [hsplit, ← List.cons_append, firstWord_line _ htail]

/-- After such a text another one is read as it is read alone, some lines further down. -/
theorem tokenize_after {s : Scan} (hm : AtMargin first.toList)
    (hafresh : StartsAfresh second.toList) (hreads : Reads (start first.toList) s)
    (hend : s.rest = []) (hl : s.lineStart = true) :
    (∃ us vs, tokenize second = .ok us ∧ tokenize (first ++ second) = .ok vs ∧
      Joined (first.toList.count '\n') (s.tokens.reverse ++ s.closing) us vs ∧
      ∀ t ∈ us.head?, Opens t) ∨
    ∃ e, tokenize second = .error e ∧
      tokenize (first ++ second) = .error (e.lower (first.toList.count '\n')) := by
  have hstacked := reads_stacked hreads
  have hseam : Reads (start (first ++ second).toList)
      ((start second.toList).within (around first.toList s)) :=
    reads_seam hm hreads hend hl
  have hpositive : ∀ w ∈ s.indents, 0 < w := fun w hw =>
    List.rel_of_pairwise_cons hstacked.level.rising (List.mem_reverse.mpr hw)
  obtain ⟨x, taken, rest, rfl, hreads', hwithin, hfirst, hcase⟩ :=
    reads_void (s := start second.toList) (E := around first.toList s) rfl rfl
  rcases hcase with rfl | ⟨lead, c, more, hline⟩
  · -- The second text has no line with content.
    left
    refine ⟨_, _, tokenize_ok_iff.mpr ⟨_, hreads', rfl, rfl⟩,
      tokenize_ok_iff.mpr ⟨_, hseam.trans hwithin, rfl, rfl⟩, joined_void hstacked hl rfl rfl _, ?_⟩
    rw [finish_pending]
    rintro t ht hk
    obtain rfl := Option.some.inj ht
    cases hk
  · obtain ⟨rfl, hword⟩ := hline.afresh hafresh hfirst
    generalize hx : (start second.toList).passOver taken rest = x at hreads' hwithin hline
    have hindents : x.indents = [] := hx ▸ rfl
    have htokens : x.tokens = [] := hx ▸ rfl
    have hdepth : x.depth = 0 := hx ▸ rfl
    have hrest : x.rest = c :: more := hline.text
    obtain ⟨hstep, hstep'⟩ := hline.outermost_within (E := around first.toList s) hindents htokens
      hpositive
    have hsettled : Reads (start second.toList) x.settled :=
      hreads'.tail ⟨by simp [hrest], hstep⟩
    have hsettled' := (hseam.trans hwithin).tail ⟨by simp [within, hrest], hstep'⟩
    have hfresh : x.settled.Fresh := .inl ⟨htokens, rfl, hdepth, hrest ▸ hword⟩
    rcases run_reads (s := x.settled) (Nat.le_refl _) with
      ⟨z, -, hz, hzend⟩ | ⟨z, e, -, hz, hzne, hfail⟩
    · left
      have hz' := reads_within (E := x.closedAround (around first.toList s)) rfl rfl hz
      exact ⟨_, _, tokenize_ok_iff.mpr ⟨z, hsettled.trans hz, hzend, rfl⟩,
        tokenize_ok_iff.mpr ⟨_, hsettled'.trans hz', by simp [within, hzend]; rfl, rfl⟩,
        joined_line first.toList, finish_opens (reads_fresh hfresh hz)⟩
    · right
      have hz' := reads_within (E := x.closedAround (around first.toList s)) rfl rfl hz
      refine ⟨e, tokenize_error_iff.mpr ⟨z, hsettled.trans hz, hzne, hfail⟩,
        tokenize_error_iff.mpr ⟨_, hsettled'.trans hz', by simp [within, hzne], ?_⟩⟩
      rw [step_within (.inl rfl) (.inl rfl), hfail]
      rfl

end Offside.Lexer
