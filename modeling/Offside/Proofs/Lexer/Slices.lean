import Offside.Proofs.Lexer.Turn

/-!
Where tokens stand. Line and column of a token denote the offset at which its lexeme is found in the
text, and each token starts where the one before it has ended, or later. A change of level stands at
the first character of a line after its indentation, and a refusal at the character that causes it.
-/

namespace Offside

namespace Position

/-- The offset in a text that a line and a column denote. -/
structure Denotes (p : Position) (text : List Char) (n : Nat) : Prop where
  within : n ≤ text.length
  line : p.line = 1 + (text.take n).count '\n'
  column : p.column = 1 + ((text.take n).reverse.takeWhile (· != '\n')).length

def Before (p q : Position) : Prop := p.line < q.line ∨ p.line = q.line ∧ p.column < q.column

instance (p q : Position) : Decidable (p.Before q) := inferInstanceAs (Decidable (_ ∨ _))

variable {p q : Position} {text : List Char} {m n : Nat}

theorem after_append (p : Position) (cs ds : List Char) :
    p.after (cs ++ ds) = (p.after cs).after ds := by
  simp [after, List.foldl_append]

theorem start_after (cs : List Char) : start.after cs =
    ⟨1 + cs.count '\n', 1 + (cs.reverse.takeWhile (· != '\n')).length⟩ := by
  induction cs using List.reverseRecOn with
  | nil => rfl
  | append_singleton cs c ih =>
    rw [after_append, ih]
    change next _ c = _
    by_cases hc : c = '\n'
    · simp [next, hc]
      omega
    · simp [next, hc]
      omega

theorem denotes_iff : p.Denotes text n ↔ n ≤ text.length ∧ p = start.after (text.take n) := by
  rw [start_after]
  constructor
  · rintro ⟨hn, hline, hcolumn⟩
    refine ⟨hn, ?_⟩
    rw [← hline, ← hcolumn]
  · rintro ⟨hn, rfl⟩
    exact ⟨hn, rfl, rfl⟩

theorem denotes_after (before rest : List Char) :
    (start.after before).Denotes (before ++ rest) before.length :=
  denotes_iff.mpr ⟨by simp, by simp⟩

theorem Before.irrefl (p : Position) : ¬ p.Before p := by
  unfold Before
  omega

theorem Before.trans {r : Position} (h : p.Before q) (h' : q.Before r) : p.Before r := by
  unfold Before at *
  omega

theorem before_next (p : Position) (c : Char) : p.Before (p.next c) := by
  unfold Before next
  split <;> simp

theorem before_after (p : Position) {cs : List Char} (h : cs ≠ []) : p.Before (p.after cs) := by
  induction cs generalizing p with
  | nil => exact absurd rfl h
  | cons c cs ih =>
    change p.Before ((p.next c).after cs)
    by_cases hcs : cs = []
    · rw [hcs]
      exact before_next p c
    · exact (before_next p c).trans (ih _ hcs)

theorem Denotes.before (hp : p.Denotes text m) (hq : q.Denotes text n) (h : m < n) :
    p.Before q := by
  obtain ⟨-, rfl⟩ := denotes_iff.mp hp
  obtain ⟨hn, rfl⟩ := denotes_iff.mp hq
  have hsplit : text.take n = text.take m ++ (text.drop m).take (n - m) := by
    rw [← List.take_add]
    congr 1
    omega
  rw [hsplit, after_append]
  refine before_after _ fun hnil => ?_
  have := congrArg List.length hnil
  simp only [List.length_take, List.length_drop, List.length_nil] at this
  omega

theorem Denotes.not_before (hp : p.Denotes text m) (hq : q.Denotes text n) (h : m ≤ n) :
    ¬ q.Before p := by
  intro hlt
  rcases Nat.lt_or_eq_of_le h with h | rfl
  · exact Before.irrefl p ((hp.before hq h).trans hlt)
  · have heq : p = q := (denotes_iff.mp hp).2.trans (denotes_iff.mp hq).2.symm
    exact Before.irrefl p (heq ▸ hlt)

/-- A line and a column denote at most one offset. -/
theorem Denotes.unique (hm : p.Denotes text m) (hn : p.Denotes text n) : m = n := by
  rcases Nat.lt_trichotomy m n with h | h | h
  · exact absurd (hm.before hn h) (Before.irrefl p)
  · exact h
  · exact absurd (hn.before hm h) (Before.irrefl p)

end Position

/-- A token whose lexeme is the slice of the text at an offset, which is also where it stands. -/
structure Token.Sliced (t : Token) (text : List Char) (n : Nat) : Prop where
  denoted : t.pos.Denotes text n
  slice : (text.drop n).take t.lexeme.toList.length = t.lexeme.toList

namespace Lexer

/-- No text, or whole lines. -/
def AtMargin (cs : List Char) : Prop := ∀ c ∈ cs.getLast?, c = '\n'

/-- A line with content starts at an offset, after its indentation. -/
structure ContentAt (text lead : List Char) (n : Nat) : Prop where
  split : ∃ lines c more, text = lines ++ (lead ++ c :: more) ∧ n = (lines ++ lead).length ∧
    AtMargin lines ∧ IsContent c
  lead : IsIndentation lead

/-- Where a change of level is told: at a line with content, or at the end of the text. -/
def Margin (text : List Char) (t : Token) : Prop :=
  t.kind = .indent ∨ t.kind = .dedent → t.lexeme = "" ∧
    ∃ n, t.pos.Denotes text n ∧ (n = text.length ∨ ∃ lead, ContentAt text lead n)

def Apart (text : List Char) (t u : Token) : Prop :=
  ∀ m n, t.pos.Denotes text m → u.pos.Denotes text n → m + t.lexeme.toList.length ≤ n

structure Faithful (text : List Char) (ts : List Token) : Prop where
  sliced : ∀ t ∈ ts, ∃ n, t.Sliced text n
  apart : ts.Pairwise (Apart text)
  rising : ts.Pairwise fun t u => ¬ u.pos.Before t.pos
  margins : ∀ t ∈ ts, Margin text t

/-- No token starts with this character, before this text. -/
structure Unreadable (c : Char) (more : List Char) : Prop where
  symbolic : Symbolic c
  noOperator : operators.find? (·.isPrefixOf (c :: more)) = none
  noDelimiter : c ∉ delimiters

/-- What stands at the place of an error. -/
inductive Blames (text : List Char) : LexError → Prop where
  | character {p : Position} {n : Nat} {c : Char} {more : List Char} : p.Denotes text n →
      text.drop n = c :: more → Unreadable c more → Blames text ⟨.unknownCharacter c, p⟩
  | quote {p : Position} {n : Nat} {q : Char} {more : List Char} : p.Denotes text n →
      text.drop n = q :: more → q = '"' ∨ q = '\'' → splitString q more = none →
      Blames text ⟨.unterminatedString, p⟩
  | line {p : Position} {n : Nat} {lead : List Char} : p.Denotes text n → ContentAt text lead n →
      Blames text ⟨.inconsistentDedent (width lead), p⟩

/-- Tokens, last one first, of a text up to an offset. -/
structure Tiled (text : List Char) (n : Nat) (ts : List Token) : Prop where
  sliced : ∀ t ∈ ts, ∃ m, t.Sliced text m ∧ m + t.lexeme.toList.length ≤ n
  apart : ts.Pairwise fun u t => Apart text t u
  margins : ∀ t ∈ ts, Margin text t

variable {text : List Char} {ts : List Token} {t : Token} {n n' : Nat}

theorem Tiled.mono (h : Tiled text n ts) (hn : n ≤ n') : Tiled text n' ts where
  sliced t ht := by
    obtain ⟨m, hm, hle⟩ := h.sliced t ht
    exact ⟨m, hm, Nat.le_trans hle hn⟩
  apart := h.apart
  margins := h.margins

theorem Tiled.cons (h : Tiled text n ts) (ht : t.Sliced text n)
    (hn : n + t.lexeme.toList.length ≤ n') (hm : Margin text t) : Tiled text n' (t :: ts) where
  sliced := List.forall_mem_cons.mpr
    ⟨⟨n, ht, hn⟩, (h.mono (Nat.le_trans (Nat.le_add_right _ _) hn)).sliced⟩
  apart := by
    refine List.pairwise_cons.mpr ⟨fun u hu m k hdm hdk => ?_, h.apart⟩
    obtain ⟨m', hm', hle⟩ := h.sliced u hu
    rw [hdm.unique hm'.denoted, hdk.unique ht.denoted]
    exact hle
  margins := List.forall_mem_cons.mpr ⟨hm, h.margins⟩

theorem mark_sliced {kind : TokenKind} {p : Position} (hp : p.Denotes text n) :
    Token.Sliced ⟨kind, "", p⟩ text n :=
  ⟨hp, rfl⟩

/-- Marks take no text. -/
theorem Tiled.marks (h : Tiled text n ts) {kind : TokenKind} {p : Position}
    (hp : p.Denotes text n) (hm : Margin text ⟨kind, "", p⟩) (count : Nat) :
    Tiled text n (List.replicate count ⟨kind, "", p⟩ ++ ts) := by
  induction count with
  | zero => exact h
  | succ count ih => exact ih.cons (mark_sliced hp) (Nat.le_refl n) hm

theorem Tiled.faithful (h : Tiled text n ts) : Faithful text ts.reverse where
  sliced t ht := by
    obtain ⟨m, hm, -⟩ := h.sliced t (List.mem_reverse.mp ht)
    exact ⟨m, hm⟩
  apart := List.pairwise_reverse.mpr h.apart
  rising := by
    refine List.pairwise_reverse.mpr (h.apart.imp_of_mem fun {u t} hu ht hap => ?_)
    obtain ⟨m, hm, -⟩ := h.sliced t ht
    obtain ⟨k, hk, -⟩ := h.sliced u hu
    exact hm.denoted.not_before hk.denoted
      (Nat.le_trans (Nat.le_add_right _ _) (hap m k hm.denoted hk.denoted))
  margins t ht := h.margins t (List.mem_reverse.mp ht)

theorem OfLine.margin {text : List Char} (h : t.kind.OfLine) : Margin text t := by
  rintro (hk | hk) <;> rw [hk] at h <;> exact h.elim

theorem atMargin_concat (cs : List Char) : AtMargin (cs ++ ['\n']) := by
  simp [AtMargin]

namespace Scan

/-- A scan with its tokens in the text that it has taken. -/
structure Placed (text before : List Char) (s : Scan) : Prop where
  whole : text = before ++ s.rest
  pos : s.pos = Position.start.after before
  margin : s.lineStart = true → s.rest ≠ [] → AtMargin before
  tiled : Tiled text before.length s.tokens

variable {before : List Char} {s s' : Scan}

theorem start_placed (cs : List Char) : (start cs).Placed cs [] where
  whole := rfl
  pos := rfl
  margin _ _ := nofun
  tiled := ⟨List.forall_mem_nil _, .nil, List.forall_mem_nil _⟩

theorem Placed.denotes (h : s.Placed text before) : s.pos.Denotes text before.length := by
  rw [h.whole, h.pos]
  exact Position.denotes_after before s.rest

theorem Placed.drop (h : s.Placed text before) : text.drop before.length = s.rest := by
  rw [h.whole, List.drop_left]

theorem Placed.after_skip (h : s.Placed text before) {taken rest : List Char}
    (hs : s.rest = taken ++ rest)
    (hm : s.lineStart = true → rest ≠ [] → AtMargin (before ++ taken)) :
    (s.passOver taken rest).Placed text (before ++ taken) where
  whole := by rw [h.whole, hs, List.append_assoc]; rfl
  pos := by
    change s.pos.after taken = _
    rw [h.pos, Position.after_append]
  margin := hm
  tiled := h.tiled.mono (by simp)

theorem Placed.sliced (h : s.Placed text before) {taken rest : List Char}
    (hs : s.rest = taken ++ rest) (kind : TokenKind) :
    Token.Sliced ⟨kind, String.ofList taken, s.pos⟩ text before.length := by
  refine ⟨h.denotes, ?_⟩
  rw [h.drop, hs, String.toList_ofList, List.take_left]

theorem Placed.take (h : s.Placed text before) {kind : TokenKind} {taken rest : List Char}
    (hs : s.rest = taken ++ rest) (hm : Margin text ⟨kind, String.ofList taken, s.pos⟩) :
    Tiled text (before ++ taken).length (s.take kind taken rest).tokens :=
  h.tiled.cons (h.sliced hs kind) (by simp) hm

/-- A line with content is where the scan is once its indentation is passed over. -/
theorem Placed.content (h : s.Placed text before) {lead more : List Char} {c : Char}
    (hline : s.AtLine lead c more) : ContentAt text lead (before ++ lead).length := by
  refine ⟨⟨before, c, more, by rw [h.whole, hline.text], rfl, h.margin hline.lineStart ?_,
    hline.content⟩, hline.lead⟩
  simp [hline.text]

theorem Placed.settled (h : s.Placed text before) {lead more : List Char} {c : Char}
    (hline : s.AtLine lead c more) (kind : TokenKind) :
    (s.passOver lead (c :: more)).settled.Placed text (before ++ lead) ∧
      Margin text ⟨kind, "", s.pos.after lead⟩ := by
  have hplaced : (s.passOver lead (c :: more)).settled.Placed text (before ++ lead) := by
    refine ⟨?_, ?_, nofun, h.tiled.mono (by simp)⟩
    · rw [h.whole, hline.text, List.append_assoc]
      rfl
    · change s.pos.after lead = _
      rw [h.pos, Position.after_append]
  exact ⟨hplaced, fun _ => ⟨rfl, _, hplaced.denotes, .inr ⟨lead, h.content hline⟩⟩⟩

theorem turn_placed (h : s.Placed text before) (ht : Turn s s') :
    ∃ taken, s.rest = taken ++ s'.rest ∧ s'.Placed text (before ++ taken) := by
  cases ht with
  | @void taken rest hl hs hvoid =>
    refine ⟨taken, hs, h.after_skip hs fun _ hne => ?_⟩
    obtain ⟨lead, body, ending, rfl, -, -, -, rfl | ⟨-, rfl⟩⟩ := hvoid.parts
    · rw [← List.append_assoc, ← List.append_assoc]
      exact atMargin_concat _
    · exact absurd rfl hne
  | @deeper lead more c hline _ =>
    obtain ⟨hplaced, hm⟩ := h.settled hline .indent
    exact ⟨lead, hline.text, hplaced.whole, hplaced.pos, hplaced.margin,
      hplaced.tiled.marks hplaced.denotes hm 1⟩
  | @back lead more c inner outer hline _ _ _ =>
    obtain ⟨hplaced, hm⟩ := h.settled hline .dedent
    exact ⟨lead, hline.text, hplaced.whole, hplaced.pos, hplaced.margin,
      hplaced.tiled.marks hplaced.denotes hm inner.length⟩
  | @newline rest hl _ hs =>
    have hrest : s.rest = ['\n'] ++ rest := hs
    have hskip := h.after_skip hrest fun _ _ => atMargin_concat before
    refine ⟨['\n'], hs, hskip.whole, hskip.pos, fun _ _ => atMargin_concat before, ?_⟩
    exact h.take hrest (by rintro (hk | hk) <;> cases hk)
  | @space c rest hl hs _ =>
    exact ⟨[c], hs, h.after_skip hs fun hl' => absurd (hl.symm.trans hl') Bool.false_ne_true⟩
  | @comment body rest hl hs _ _ =>
    exact ⟨'#' :: body, hs, h.after_skip hs fun hl' => absurd (hl.symm.trans hl') Bool.false_ne_true⟩
  | @word kind taken rest hl hs hword =>
    have hskip := h.after_skip hs fun hl' => absurd (hl.symm.trans hl') Bool.false_ne_true
    exact ⟨taken, hs, hskip.whole, hskip.pos, hskip.margin, h.take hs (OfLine.margin hword.ofLine)⟩

theorem reads_placed (h : Reads (start text) s) : ∃ before, s.Placed text before := by
  refine reads_keeps (I := fun s => ∃ before, s.Placed text before) ⟨[], start_placed text⟩ h ?_
  rintro a b ⟨before, hplaced⟩ hturn
  obtain ⟨taken, -, hplaced'⟩ := turn_placed hplaced hturn
  exact ⟨before ++ taken, hplaced'⟩

theorem Placed.finish (h : s.Placed text before) (hend : s.rest = []) :
    Tiled text before.length s.finish.reverse := by
  have hlen : before.length = text.length := by rw [h.whole, hend, List.append_nil]
  have hmark (kind : TokenKind) : Margin text ⟨kind, "", s.pos⟩ :=
    fun _ => ⟨rfl, _, h.denotes, .inl hlen⟩
  obtain ⟨ends, hends, hfinish⟩ := finish_ends s
  have htiled : Tiled text before.length (ends ++ s.tokens) := by
    rcases hends with ⟨rfl, -⟩ | ⟨rfl, -⟩
    · exact h.tiled.marks h.denotes (hmark .newline) 1
    · exact h.tiled
  have hreverse : ends.reverse = ends := by
    rcases hends with ⟨rfl, -⟩ | ⟨rfl, -⟩ <;> rfl
  rw [hfinish, closing]
  simp only [List.reverse_append, List.reverse_reverse, List.reverse_replicate, hreverse,
    List.reverse_singleton]
  exact (htiled.marks h.denotes (hmark .dedent) _).marks h.denotes (hmark .stop) 1

end Scan

open Scan

theorem tokenize_faithful {source : String} {ts : List Token} (h : tokenize source = .ok ts) :
    Faithful source.toList ts := by
  obtain ⟨s, hreads, hend, rfl⟩ := tokenize_ok_iff.mp h
  obtain ⟨before, hplaced⟩ := reads_placed hreads
  rw [← s.finish.reverse_reverse]
  exact (hplaced.finish hend).faithful

/-- Tokens stand where they are found in the source, one after the other, and an error stands at
what causes it. -/
theorem tokens_stand_in_source (source : String) :
    (∀ ts, tokenize source = .ok ts → Faithful source.toList ts) ∧
    ∀ e, tokenize source = .error e → Blames source.toList e := by
  refine ⟨fun ts => tokenize_faithful, fun e h => ?_⟩
  obtain ⟨s, hreads, hne, hstep⟩ := tokenize_error_iff.mp h
  obtain ⟨before, hplaced⟩ := reads_placed hreads
  cases refusal_of_step hne hstep with
  | dedent hline => exact .line (hplaced.settled hline .dedent).1.denotes (hplaced.content hline)
  | unterminated _ hs hq hnone => exact .quote hplaced.denotes (hplaced.drop.trans hs) hq hnone
  | unknown _ hs hsym hop hdel =>
    exact .character hplaced.denotes (hplaced.drop.trans hs) ⟨hsym, hop, hdel⟩

end Lexer

end Offside
