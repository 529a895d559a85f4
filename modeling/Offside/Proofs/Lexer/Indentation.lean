import Offside.Proofs.Lexer.Spelling
import Offside.Proofs.Lexer.Turn

/-!
Indentation as the lexer keeps it. The open levels rise from 0 and are the INDENTs without a DEDENT;
a line is laid at the top level or refused, and no token but the end of a line comes before a change
of level, unless a bracket is open when the text ends.
-/

namespace Offside

/-- A change of level comes after the end of a line, or after a DEDENT. -/
def Adjoins (t u : Token) : Prop :=
  u.kind = .indent ∨ u.kind = .dedent → t.kind = .newline ∨ t.kind = .dedent

/-- The brackets that tokens leave open; one that closes nothing counts for nothing. -/
def bracketsOpen (ts : List Token) : Nat := (ts.map Token.word).foldl Lexer.wordDepth 0

structure LaidOut (ts : List Token) : Prop where
  ended : ∃ body stop, ts = body ++ [stop] ∧ stop.kind = .stop ∧ ∀ t ∈ body, t.kind ≠ .stop
  within : ∀ front, front <+: ts → countOf .dedent front ≤ countOf .indent front
  closed : countOf .dedent ts = countOf .indent ts
  placed : ∀ front t u rest, ts = front ++ t :: u :: rest → Adjoins t u ∨
    0 < bracketsOpen (front ++ [t]) ∧ ∀ v ∈ u :: rest, v.kind = .dedent ∨ v.kind = .stop

variable {ts us : List Token} {t u : Token}

theorem countOf_append (kind : TokenKind) (ts us : List Token) :
    countOf kind (ts ++ us) = countOf kind ts + countOf kind us :=
  List.countP_append

theorem countOf_cons (kind : TokenKind) (t : Token) (ts : List Token) :
    countOf kind (t :: ts) = countOf kind ts + if t.kind = kind then 1 else 0 := by
  simp [countOf, List.countP_cons]

theorem countOf_replicate (kind : TokenKind) (n : Nat) (t : Token) :
    countOf kind (List.replicate n t) = if t.kind = kind then n else 0 := by
  simp [countOf, List.countP_replicate]

theorem bracketsOpen_concat (ts : List Token) (t : Token) :
    bracketsOpen (ts ++ [t]) = Lexer.wordDepth (bracketsOpen ts) t.word := by
  simp [bracketsOpen, List.foldl_append]

theorem bracketsOpen_marks (ts : List Token) (n : Nat) {t : Token} (h : t.kind ≠ .delimiter) :
    bracketsOpen (ts ++ List.replicate n t) = bracketsOpen ts := by
  induction n with
  | zero => simp
  | succ n ih =>
    rw [List.replicate_succ', ← List.append_assoc, bracketsOpen_concat, ih]
    exact Lexer.wordDepth_of_kind h

theorem Adjoins.of_line (h : u.kind ≠ .indent) (h' : u.kind ≠ .dedent) : Adjoins t u :=
  fun hu => (hu.elim h h').elim

theorem adjoins_marks (n : Nat) (t : Token) (h : t.kind = .dedent) :
    (List.replicate n t).IsChain Adjoins :=
  List.isChain_replicate_of_rel n fun _ => .inr h

theorem TokenKind.OfLine.not_shift {kind : TokenKind} (h : kind.OfLine) :
    kind ≠ .indent ∧ kind ≠ .dedent := by
  constructor <;> rintro rfl <;> exact h

theorem Nested.within {atStart : Bool} {blocks : Nat} {front : List Token}
    (h : Nested atStart blocks ts) (hfront : front <+: ts) :
    countOf .dedent front ≤ countOf .indent front + blocks := by
  induction h generalizing front with
  | nil =>
    rw [List.prefix_nil.mp hfront]
    exact Nat.zero_le _
  | line hk _ ih =>
    rcases List.prefix_cons_iff.mp hfront with rfl | ⟨front, rfl, htail⟩
    · exact Nat.zero_le _
    · rw [countOf_cons, countOf_cons, if_neg (hk.not_shift.2), if_neg (hk.not_shift.1)]
      exact ih htail
  | newline hk _ ih | indent hk _ ih | dedent hk _ ih =>
    rcases List.prefix_cons_iff.mp hfront with rfl | ⟨front, rfl, htail⟩
    · exact Nat.zero_le _
    · have := ih htail
      simp only [countOf_cons, hk, reduceCtorEq, if_true, if_false]
      omega

theorem Nested.kinds {atStart : Bool} {blocks : Nat} (h : Nested atStart blocks ts) :
    ∀ t ∈ ts, t.kind ≠ .stop := by
  induction h with
  | nil => exact List.forall_mem_nil _
  | line hk _ ih =>
    refine List.forall_mem_cons.mpr ⟨fun hstop => ?_, ih⟩
    rw [hstop] at hk
    exact hk
  | newline hk _ ih | indent hk _ ih | dedent hk _ ih =>
    exact List.forall_mem_cons.mpr ⟨by simp [hk], ih⟩

namespace Lexer.Scan

/-- The open levels, outermost first. -/
def levels (s : Scan) : List Nat := 0 :: s.indents.reverse

/-- A scan whose levels rise to a width and are the INDENTs that it has not closed. -/
structure Level (s : Scan) (width : Nat) : Prop where
  rising : s.levels.Pairwise (· < ·)
  top : s.levels.getLast? = some width
  height : countOf .dedent s.tokens + s.indents.length = countOf .indent s.tokens

structure Stacked (s : Scan) : Prop where
  level : s.Level s.top
  depth : s.depth = bracketsOpen s.tokens.reverse
  outside : s.lineStart = true → s.depth = 0
  ended : s.lineStart = true → ∀ t ∈ s.tokens.head?, t.kind = .newline
  placed : s.tokens.reverse.IsChain Adjoins

variable {s s' : Scan}

theorem levels_top (s : Scan) : s.levels.getLast? = some s.top := by
  unfold levels top
  cases s.indents with
  | nil => rfl
  | cons w is => rw [List.reverse_cons, ← List.cons_append, List.getLast?_concat]; rfl

theorem levels_rising : s.levels.Pairwise (· < ·) ↔ (s.indents ++ [0]).Pairwise (· > ·) := by
  rw [← List.pairwise_reverse]
  simp [levels]

theorem le_top (h : s.levels.Pairwise (· < ·)) : ∀ w ∈ s.levels, w ≤ s.top := by
  rw [levels_rising] at h
  intro w hw
  have hw : w ∈ s.indents ++ [0] := by simpa [levels, or_comm] using hw
  unfold top
  cases hi : s.indents with
  | nil => simpa [hi] using hw
  | cons v is =>
    rw [hi] at h hw
    rcases List.mem_cons.mp hw with rfl | hw
    · exact Nat.le_refl _
    · exact Nat.le_of_lt (List.rel_of_pairwise_cons h hw)

theorem start_stacked (cs : List Char) : (start cs).Stacked where
  level := ⟨List.pairwise_singleton _ _, rfl, rfl⟩
  depth := rfl
  outside _ := rfl
  ended _ := nofun
  placed := .nil

/-- A token that changes no level leaves height and places as they are. -/
theorem Stacked.token (h : s.Stacked) (t : Token) (hk : t.kind ≠ .indent) (hk' : t.kind ≠ .dedent) :
    countOf .dedent (t :: s.tokens) + s.indents.length = countOf .indent (t :: s.tokens) ∧
      (t :: s.tokens).reverse.IsChain Adjoins := by
  constructor
  · rw [countOf_cons, countOf_cons, if_neg hk', if_neg hk]
    exact h.level.height
  · rw [List.reverse_cons, List.isChain_append]
    refine ⟨h.placed, .singleton _, ?_⟩
    rintro t - u hu
    obtain rfl := Option.some.inj hu
    exact .of_line hk hk'

/-- Marks at the start of a line come after the end of the line before. -/
theorem Stacked.marked (h : s.Stacked) (hl : s.lineStart = true) {marks : List Token}
    (hmarks : marks.IsChain Adjoins) : (s.tokens.reverse ++ marks).IsChain Adjoins := by
  refine List.isChain_append.mpr ⟨h.placed, hmarks, ?_⟩
  intro t ht u _ _
  rw [List.getLast?_reverse] at ht
  exact .inl (h.ended hl t ht)

theorem Stacked.settling (h : s.Stacked) {lead more : List Char} {c : Char}
    (hl : s.lineStart = true) (hs : Settling s lead c more (.ok s')) :
    s'.Stacked ∧ s'.top = width lead := by
  have hinside {p : Prop} (hl : false = true) : p := absurd hl Bool.false_ne_true
  cases hs with
  | deeper hlt =>
    refine ⟨⟨⟨?_, levels_top _, ?_⟩, ?_, hinside, hinside, ?_⟩, rfl⟩
    · have hlevels : ((s.passOver lead (c :: more)).settled.opened (width lead)).levels =
          s.levels ++ [width lead] := by simp [levels, opened, mark, settled, passOver]
      rw [hlevels, List.pairwise_append]
      refine ⟨h.level.rising, List.pairwise_singleton _ _, fun w hw v hv => ?_⟩
      rw [List.mem_singleton.mp hv]
      exact Nat.lt_of_le_of_lt (le_top h.level.rising w hw) hlt
    · have := h.level.height
      simp only [opened, mark, settled, passOver, countOf_cons, List.length_cons]
      simp
      omega
    · simp only [opened, mark, settled, passOver, List.reverse_cons]
      rw [bracketsOpen_concat, wordDepth_of_kind (by simp [Token.word])]
      exact h.depth
    · simp only [opened, mark, settled, passOver, List.reverse_cons]
      exact h.marked hl (.singleton _)
  | @back inner outer hsplit hinner htop =>
    refine ⟨⟨⟨?_, levels_top _, ?_⟩, ?_, hinside, hinside, ?_⟩, htop⟩
    · have hrising := levels_rising.mp h.level.rising
      rw [hsplit, List.append_assoc] at hrising
      exact levels_rising.mpr (List.pairwise_append.mp hrising).2.1
    · have := h.level.height
      rw [hsplit, List.length_append] at this
      simp only [closed, settled, passOver, countOf_append, countOf_replicate]
      simp
      omega
    · simp only [closed, settled, passOver, List.reverse_append, List.reverse_replicate]
      rw [bracketsOpen_marks _ _ (by simp)]
      exact h.depth
    · simp only [closed, settled, passOver, List.reverse_append, List.reverse_replicate]
      exact h.marked hl (adjoins_marks _ _ rfl)

theorem turn_stacked (h : s.Stacked) (ht : Turn s s') : s'.Stacked := by
  cases ht with
  | void _ _ _ | space _ _ _ | comment _ _ _ _ =>
    exact ⟨⟨h.level.rising, levels_top _, h.level.height⟩, h.depth, h.outside, h.ended, h.placed⟩
  | deeper hline hlt => exact (h.settling hline.lineStart (.deeper hlt)).1
  | back hline hsplit hinner htop => exact (h.settling hline.lineStart (.back hsplit hinner htop)).1
  | newline hl hd hs =>
    obtain ⟨hheight, hplaced⟩ := h.token ⟨.newline, String.ofList ['\n'], s.pos⟩ (by simp)
      (by simp)
    refine ⟨⟨h.level.rising, levels_top _, hheight⟩, ?_, fun _ => hd, ?_, hplaced⟩
    · simp only [Scan.take, Scan.passOver, List.reverse_cons, bracketsOpen_concat, ← h.depth]
      exact (wordDepth_of_kind (by simp [Token.word])).symm
    · rintro - t ht
      obtain rfl := Option.some.inj ht
      rfl
  | @word kind taken rest hl hs hword =>
    obtain ⟨hheight, hplaced⟩ := h.token ⟨kind, String.ofList taken, s.pos⟩
      hword.ofLine.not_shift.1 hword.ofLine.not_shift.2
    refine ⟨⟨h.level.rising, levels_top _, hheight⟩, ?_, ?_, ?_, hplaced⟩
    · simp only [Scan.take, Scan.passOver, List.reverse_cons, bracketsOpen_concat, ← h.depth]
      rfl
    · intro hl'
      cases hl.symm.trans hl'
    · intro hl'
      cases hl.symm.trans hl'

theorem reads_stacked {cs : List Char} (h : Reads (start cs) s) : s.Stacked :=
  reads_keeps (start_stacked cs) h fun _ _ => turn_stacked

theorem closing_kinds (s : Scan) : ∀ t ∈ s.closing, t.kind = .dedent ∨ t.kind = .stop := by
  refine List.forall_mem_append.mpr ⟨fun t ht => ?_, List.forall_mem_singleton.mpr (.inr rfl)⟩
  rw [List.eq_of_mem_replicate ht]
  exact .inl rfl

theorem closing_placed (s : Scan) : s.closing.IsChain Adjoins := by
  refine List.isChain_append.mpr ⟨adjoins_marks _ _ rfl, .singleton _, ?_⟩
  rintro t - u hu
  obtain rfl := Option.some.inj hu
  exact .of_line (by simp) (by simp)

/-- Where a token stands: in the front, in the closing part, or at the seam. -/
theorem adjacent_split {front closing before after : List Token}
    (h : front ++ closing = before ++ t :: u :: after) :
    (∃ mid, front = before ++ t :: u :: mid) ∨ (∃ mid, closing = mid ++ t :: u :: after) ∨
      front = before ++ [t] ∧ closing = u :: after := by
  rcases List.append_eq_append_iff.mp h with ⟨mid, rfl, rfl⟩ | ⟨mid, rfl, hmid⟩
  · exact .inr (.inl ⟨mid, rfl⟩)
  · match mid, hmid with
    | [], hmid => exact .inr (.inl ⟨[], hmid.symm⟩)
    | [v], hmid =>
      obtain ⟨hv, hrest⟩ := List.cons.inj hmid
      exact .inr (.inr ⟨by rw [hv], hrest.symm⟩)
    | v :: w :: mid, hmid =>
      obtain ⟨hv, hrest⟩ := List.cons.inj hmid
      obtain ⟨hw, -⟩ := List.cons.inj hrest
      exact .inl ⟨mid, by rw [hv, hw]⟩

theorem isChain_adjacent {R : Token → Token → Prop} {before after : List Token}
    (h : (before ++ t :: u :: after).IsChain R) : R t u :=
  (List.isChain_cons_cons.mp (List.isChain_append.mp h).2.1).1

theorem finish_placed (h : s.Stacked) {front rest : List Token}
    (hsplit : s.finish = front ++ t :: u :: rest) : Adjoins t u ∨
      0 < bracketsOpen (front ++ [t]) ∧ ∀ v ∈ u :: rest, v.kind = .dedent ∨ v.kind = .stop := by
  obtain ⟨ends, hends, hfinish⟩ := finish_ends s
  have hfront : (s.tokens.reverse ++ ends).IsChain Adjoins := by
    refine List.isChain_append.mpr ⟨h.placed, ?_, ?_⟩
    · rcases hends with ⟨rfl, -⟩ | ⟨rfl, -⟩
      · exact .singleton _
      · exact .nil
    · rcases hends with ⟨rfl, -⟩ | ⟨rfl, -⟩
      · rintro t - u hu
        obtain rfl := Option.some.inj hu
        exact .of_line (by simp) (by simp)
      · rintro t - u ⟨⟩
  rw [hfinish] at hsplit
  rcases adjacent_split hsplit with ⟨mid, hmid⟩ | ⟨mid, hmid⟩ | ⟨hlast, hnext⟩
  · rw [hmid] at hfront
    exact .inl (isChain_adjacent hfront)
  · exact .inl (isChain_adjacent (hmid ▸ s.closing_placed))
  rw [← hlast, ← hnext]
  rcases hends with ⟨rfl, -⟩ | ⟨rfl, hopen⟩
  · refine .inl fun _ => .inl ?_
    have ht := congrArg List.getLast? hlast
    rw [List.getLast?_concat, List.getLast?_concat] at ht
    rw [← Option.some.inj ht]
  · rw [List.append_nil] at hlast ⊢
    by_cases hd : s.depth = 0
    · refine .inl fun _ => .inl (hopen hd t ?_)
      rw [← List.getLast?_reverse, hlast, List.getLast?_concat]
      rfl
    · rw [← h.depth]
      exact .inr ⟨Nat.pos_of_ne_zero hd, s.closing_kinds⟩

end Lexer.Scan

namespace Lexer

open Scan

theorem tokenize_laidOut {source : String} (h : tokenize source = .ok ts) : LaidOut ts := by
  obtain ⟨body, stop, rfl, hstop, hbody⟩ := tokenize_nested h
  have hkind (kind : TokenKind) (hne : TokenKind.stop ≠ kind) :
      countOf kind (body ++ [stop]) = countOf kind body := by
    rw [countOf_append, countOf_cons, hstop, if_neg hne]
    rfl
  refine ⟨⟨body, stop, rfl, hstop, hbody.kinds⟩, ?_, ?_, ?_⟩
  · intro front hfront
    rcases List.prefix_concat_iff.mp hfront with rfl | hfront
    · rw [hkind _ (by decide), hkind _ (by decide)]
      exact hbody.within List.prefix_rfl
    · exact hbody.within hfront
  · rw [hkind _ (by decide), hkind _ (by decide)]
    exact hbody.count.symm
  · intro front t u rest hsplit
    obtain ⟨s, hreads, -, hfinish⟩ := tokenize_ok_iff.mp h
    exact finish_placed (reads_stacked hreads) (hfinish.trans hsplit)

/-- A logical line is refused if its width is below the top level and no open level. -/
theorem step_refused_iff {s : Scan} {lead more : List Char} {c : Char} (hs : s.Stacked)
    (h : s.AtLine lead c more) :
    (∃ e, s.step = .error e) ↔ width lead < s.top ∧ width lead ∉ s.levels := by
  have hrising := levels_rising.mp hs.level.rising
  have hmem (w : Nat) : w ∈ s.levels ↔ w ∈ s.indents ++ [0] := by
    simp [Scan.levels, or_comm]
  have hsettles := h.settles
  generalize s.step = r at hsettles
  cases hsettles with
  | deeper hlt => simpa using fun hlt' => absurd hlt (Nat.not_lt_of_lt hlt')
  | @back inner outer hsplit _ htop =>
    have hin : width lead ∈ s.levels := by
      rw [hmem, hsplit, ← htop]
      cases outer <;> simp
    simpa using fun _ => hin
  | @refused inner outer hsplit hne hinner hlow =>
    rw [hsplit] at hrising
    refine ⟨fun _ => ⟨?_, fun hin => ?_⟩, fun _ => ⟨_, rfl⟩⟩
    · obtain ⟨w, inner, rfl⟩ := List.exists_cons_of_ne_nil hne
      rw [top, hsplit]
      exact hinner w List.mem_cons_self
    · rw [hmem, hsplit, List.append_assoc] at hin
      rcases List.mem_append.mp hin with hin | hin
      · exact Nat.lt_irrefl _ (hinner _ hin)
      · have houter : (outer ++ [0]).Pairwise (· > ·) := by
          rw [List.append_assoc] at hrising
          exact (List.pairwise_append.mp hrising).2.1
        cases outer with
        | nil => simp_all
        | cons v outer =>
          rcases List.mem_cons.mp hin with heq | hin
          · exact Nat.ne_of_gt hlow heq
          · exact Nat.lt_asymm hlow (List.rel_of_pairwise_cons houter hin)

/-- Levels and tokens of every source, and which of its lines is refused for its width. -/
theorem indentation_kept (source : String) :
    (∀ ts, tokenize source = .ok ts → LaidOut ts) ∧
    (∀ s s' lead c more, Reads (start source.toList) s → s.AtLine lead c more → s.step = .ok s' →
      s'.Level (width lead)) ∧
    ∀ w p, tokenize source = .error ⟨.inconsistentDedent w, p⟩ ↔
      ∃ s lead c more, Reads (start source.toList) s ∧ s.AtLine lead c more ∧
        w = width lead ∧ p = s.pos.after lead ∧ w < s.top ∧ w ∉ s.levels := by
  refine ⟨fun ts => tokenize_laidOut, ?_, ?_⟩
  · intro s s' lead c more hreads hline hstep
    have hsettles := hline.settles
    rw [hstep] at hsettles
    obtain ⟨hstacked, htop⟩ := (reads_stacked hreads).settling hline.lineStart hsettles
    exact htop ▸ hstacked.level
  · intro w p
    rw [tokenize_error_iff]
    constructor
    · rintro ⟨s, hreads, hne, hstep⟩
      cases refusal_of_step hne hstep with
      | @dedent lead more c inner outer hline =>
        obtain ⟨hlow, hnot⟩ := (step_refused_iff (reads_stacked hreads) hline).mp ⟨_, hstep⟩
        exact ⟨s, lead, c, more, hreads, hline, rfl, rfl, hlow, hnot⟩
    · rintro ⟨s, lead, c, more, hreads, hline, rfl, rfl, hlow, hnot⟩
      obtain ⟨e, he⟩ := (step_refused_iff (reads_stacked hreads) hline).mpr ⟨hlow, hnot⟩
      have hsettles := hline.settles
      rw [he] at hsettles
      refine ⟨s, hreads, ?_, ?_⟩
      · rw [hline.text]
        exact List.append_ne_nil_of_right_ne_nil _ (List.cons_ne_nil _ _)
      · cases hsettles
        exact he

end Lexer

end Offside
