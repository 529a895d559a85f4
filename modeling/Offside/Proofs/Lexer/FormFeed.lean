import Offside.Proofs.Lexer.Coverage
import Offside.Proofs.Lexer.Seam

/-!
White space that counts as content. A line that begins with a form feed, apart from its indentation,
has its indentation compared with the open levels even if nothing but white space and a comment
follows, and its end is a NEWLINE. Outside brackets no other line ends in a NEWLINE without a word
before it.
-/

namespace Offside.Lexer

/-- A form feed, white space, and perhaps a comment. -/
def Feed (cs : List Char) : Prop :=
  ∃ blanks comment, cs = '\x0c' :: (blanks ++ comment) ∧ (∀ c ∈ blanks, isSpace c = true) ∧
    (comment = [] ∨ ∃ body, comment = '#' :: body ∧ OneLine body)

/-- A line of nothing else behind its indentation, up to a position where it ends, with no bracket
open. -/
def FeedLine (text : List Char) (ts : List Token) (lead : List Char) (p : Position) : Prop :=
  ∃ lines feed more, text = lines ++ (lead ++ feed) ++ more ∧ AtMargin lines ∧
    IsIndentation lead ∧ Feed feed ∧ (∀ c ∈ more.head?, c = '\n') ∧
    p = Position.start.after (lines ++ (lead ++ feed)) ∧ openAt text ts lines.length = 0

namespace Scan

/-- A line is being read that has given no word, and no bracket is open. -/
structure Idle (s : Scan) : Prop where
  inside : s.lineStart = false
  depth : s.depth = 0
  wordless : ∀ t ∈ s.tokens.head?, ¬ t.kind.OfLine

/-- What has been read of such a line behind its indentation, before the rest of the text. -/
inductive Begins (rest : List Char) : List Char → Prop where
  | content {c : Char} {more : List Char} : rest = c :: more → IsContent c → Begins rest []
  | blanks {blanks : List Char} : (∀ c ∈ blanks, isSpace c = true) →
      Begins rest ('\x0c' :: blanks)
  | comment {blanks body : List Char} : (∀ c ∈ blanks, isSpace c = true) → OneLine body →
      (∀ c ∈ rest.head?, c = '\n') → Begins rest ('\x0c' :: (blanks ++ '#' :: body))

/-- The line of an idle scan: it is indented to the top level, and no word has been read of it. -/
def Idles (text before : List Char) (s : Scan) : Prop :=
  s.Idle → ∃ lines lead seen, before = lines ++ (lead ++ seen) ∧ AtMargin lines ∧
    IsIndentation lead ∧ width lead = s.top ∧ openAt text s.tokens.reverse lines.length = 0 ∧
    Begins s.rest seen

variable {text before taken lead seen rest : List Char} {a b s z : Scan} {c : Char}

theorem content_space (hc : IsContent c) (hspace : isSpace c = true) : c = '\x0c' := by
  have hindentation := hc.indentation
  unfold isIndentation at hindentation
  unfold isSpace at hspace
  simpa [hindentation, hc.carriage] using hspace

theorem space_oneLine {cs : List Char} (h : ∀ c ∈ cs, isSpace c = true) : OneLine cs :=
  fun hmem => absurd (h _ hmem) (by decide)

/-- A blank further on, unless a comment has been read. -/
theorem Begins.space (h : Begins (c :: rest) seen) (hc : isSpace c = true) :
    Begins rest (seen ++ [c]) := by
  cases h with
  | content hrest hcontent =>
    obtain ⟨rfl, -⟩ := List.cons.inj hrest
    rw [content_space hcontent hc]
    exact .blanks (List.forall_mem_nil _)
  | blanks hblanks =>
    exact .blanks (List.forall_mem_append.mpr ⟨hblanks, List.forall_mem_singleton.mpr hc⟩)
  | comment _ _ hrest =>
    obtain rfl : c = '\n' := hrest c rfl
    cases hc

theorem Begins.commented {body : List Char} (h : Begins ('#' :: (body ++ rest)) seen)
    (hbody : OneLine body) (hrest : ∀ c ∈ rest.head?, c = '\n') :
    Begins rest (seen ++ '#' :: body) := by
  cases h with
  | content hsplit hcontent => exact absurd (List.cons.inj hsplit).1.symm hcontent.comment
  | blanks hblanks => exact .comment hblanks hbody hrest
  | comment _ _ hline => cases hline '#' rfl

/-- Where the line ends, it is a form feed with white space. -/
theorem Begins.feed (h : Begins rest seen) (hrest : ∀ c ∈ rest.head?, c = '\n') : Feed seen := by
  cases h with
  | @content c more hsplit hcontent =>
    subst hsplit
    exact absurd (hrest c rfl) hcontent.newline
  | @blanks blanks hblanks => exact ⟨blanks, [], by simp, hblanks, .inl rfl⟩
  | @comment blanks body hblanks hbody _ =>
    exact ⟨blanks, '#' :: body, rfl, hblanks, .inr ⟨body, rfl, hbody⟩⟩

/-! ### The line of an idle scan -/

/-- A line with content begins idle. -/
theorem idles_content (ht : Takes text before taken a b) (hs : a.Stacked) {more : List Char}
    (hline : a.AtLine lead c more) (hrest : b.rest = c :: more) (htop : b.top = width lead) :
    Idles text (before ++ taken) b := by
  intro _
  obtain rfl : taken = lead := by
    have hsplit := ht.rest.symm.trans hline.text
    rw [hrest] at hsplit
    exact List.append_cancel_right hsplit
  have hwithin := ht.here.within
  obtain ⟨new, hnew, hfrom⟩ := turn_adds ht.here ht.turn
  refine ⟨before, taken, [], by simp, ht.here.margin hline.lineStart (by simp [hline.text]),
    hline.lead, htop.symm, ?_, .content hrest hline.content⟩
  rw [hnew, List.reverse_append, openAt_append hwithin fun t h => hfrom t (List.mem_reverse.mp h),
    ht.here.tiled.openAt_eq hwithin, ← hs.depth]
  exact hs.outside hline.lineStart

theorem turn_idles (h : Idles text before a) (hs : a.Stacked) (ht : Takes text before taken a b) :
    Idles text (before ++ taken) b := by
  have htaken (cs : List Char) (hrest : a.rest = cs ++ b.rest) : taken = cs :=
    List.append_cancel_right (ht.rest.symm.trans hrest)
  have hsettled {lead more : List Char} {c : Char} (hline : a.AtLine lead c more)
      (hsettling : Settling a lead c more (.ok b)) : b.top = width lead :=
    (hs.settling hline.lineStart hsettling).2
  have hturn := ht.turn
  cases hturn with
  | void hl => exact fun hidle => absurd (hl.symm.trans hidle.inside) Bool.noConfusion
  | newline => exact fun hidle => absurd hidle.inside Bool.noConfusion
  | deeper hline hlt => exact idles_content ht hs hline rfl (hsettled hline (.deeper hlt))
  | back hline hsplit hinner htop =>
    exact idles_content ht hs hline rfl (hsettled hline (.back hsplit hinner htop))
  | word _ _ hword => exact fun hidle => absurd hword.ofLine (hidle.wordless _ rfl)
  | @space c rest hl hrest hspace =>
    intro hidle
    obtain rfl := htaken [c] hrest
    obtain ⟨lines, lead, seen, rfl, hmargin, hlead, htop, hopen, hbegins⟩ :=
      h ⟨hl, hidle.depth, hidle.wordless⟩
    have hc : isSpace c = true := hspace.resolve_right fun hc => Nat.ne_of_gt hc.2 hidle.depth
    rw [hrest] at hbegins
    exact ⟨lines, lead, seen ++ [c], by simp, hmargin, hlead, htop, hopen, hbegins.space hc⟩
  | @comment body rest hl hrest hbody hend =>
    intro hidle
    obtain rfl := htaken ('#' :: body) hrest
    obtain ⟨lines, lead, seen, rfl, hmargin, hlead, htop, hopen, hbegins⟩ :=
      h ⟨hl, hidle.depth, hidle.wordless⟩
    rw [hrest] at hbegins
    exact ⟨lines, lead, seen ++ '#' :: body, by simp, hmargin, hlead, htop, hopen,
      hbegins.commented hbody hend⟩

theorem reads_idles (h : Reads (start text) s) :
    ∃ before, s.Placed text before ∧ Idles text before s := by
  suffices hall : s.Stacked ∧ ∃ before, s.Placed text before ∧ Idles text before s from hall.2
  refine reads_keeps (I := fun s => s.Stacked ∧ ∃ before, s.Placed text before ∧
    Idles text before s) ⟨start_stacked text, [], start_placed text, fun hidle => ?_⟩ h ?_
  · cases hidle.inside
  · rintro a b ⟨hs, before, hplaced, hidles⟩ hturn
    obtain ⟨taken, hrest, hplaced'⟩ := turn_placed hplaced hturn
    exact ⟨turn_stacked hs hturn, before ++ taken, hplaced',
      turn_idles hidles hs ⟨hturn, hplaced, hplaced', hrest⟩⟩

/-- An idle line that ends is a form feed with white space, indented to the top level. -/
theorem idle_feedLine (ha : Reads (start text) a) (hidle : a.Idle)
    (hend : ∀ c ∈ a.rest.head?, c = '\n') (hz : Reads a z) :
    ∃ lead, FeedLine text z.finish lead a.pos ∧ width lead = a.top := by
  obtain ⟨before, hplaced, hidles⟩ := reads_idles ha
  obtain ⟨lines, lead, seen, rfl, hmargin, hlead, htop, hopen, hbegins⟩ := hidles hidle
  refine ⟨lead, ⟨lines, seen, a.rest, hplaced.whole, hmargin, hlead, hbegins.feed hend, hend,
    hplaced.pos, ?_⟩, htop⟩
  obtain ⟨later, hfinish, hfrom⟩ := reads_finish hplaced hz
  have hwithin := hplaced.within
  rw [List.length_append] at hwithin
  rw [hfinish, openAt_append (Nat.le_trans (Nat.le_add_right _ _) hwithin)
    (hfrom.mono (by simp))]
  exact hopen

/-- Where levels are open the line is indented. -/
theorem width_top (hs : s.Stacked) (hn : s.indents ≠ []) (htop : width lead = s.top) :
    lead ≠ [] := by
  rintro rfl
  have hrising := hs.level.rising
  obtain ⟨w, outer, hindents⟩ := List.exists_cons_of_ne_nil hn
  have hpos : 0 < w := List.rel_of_pairwise_cons hrising (by simp [hindents])
  rw [top, hindents] at htop
  exact Nat.ne_of_gt hpos htop.symm

/-! ### Where a NEWLINE or an INDENT is read -/

/-- A turn gives one token at most, apart from DEDENTs. -/
theorem turn_one (h : Turn a b) : (∃ t, b.tokens = t :: a.tokens) ∨
    ∃ marks, b.tokens = marks ++ a.tokens ∧ ∀ t ∈ marks, t.kind = .dedent := by
  cases h with
  | void | space | comment => exact .inr ⟨[], rfl, List.forall_mem_nil _⟩
  | deeper | newline | word => exact .inl ⟨_, rfl⟩
  | back =>
    refine .inr ⟨_, rfl, fun t ht => ?_⟩
    rw [List.eq_of_mem_replicate ht]

/-- The turn that has given a token, which is no DEDENT. -/
theorem token_read {t : Token} {front back : List Token} (hz : Reads (start text) z)
    (hsplit : z.tokens.reverse = front ++ t :: back) (hk : t.kind ≠ .dedent) :
    ∃ a b, Reads (start text) a ∧ Next a b ∧ Reads b z ∧ a.tokens.reverse = front ∧
      b.tokens = t :: a.tokens := by
  induction hz generalizing back with
  | refl => simp [start] at hsplit
  | @tail y z hy hnext ih =>
    -- a token that was there before the last turn
    have old {mid : List Token} (h : y.tokens.reverse = front ++ t :: mid) :
        ∃ a b, Reads (start text) a ∧ Next a b ∧ Reads b z ∧ a.tokens.reverse = front ∧
          b.tokens = t :: a.tokens := by
      obtain ⟨a, b, ha, hab, hb, hrest⟩ := ih h
      exact ⟨a, b, ha, hab, hb.tail hnext, hrest⟩
    rcases turn_one hnext.turn with ⟨u, hu⟩ | ⟨marks, hmarks, hdedents⟩
    · rw [hu, List.reverse_cons] at hsplit
      rcases List.eq_nil_or_concat' back with rfl | ⟨back, v, rfl⟩
      · obtain ⟨hfront, ht⟩ := List.append_inj' hsplit rfl
        obtain rfl := List.singleton_inj.mp ht
        exact ⟨y, z, hy, hnext, .refl, hfront, hu⟩
      · rw [← List.cons_append, ← List.append_assoc] at hsplit
        exact old (List.append_inj' hsplit rfl).1
    · rw [hmarks, List.reverse_append] at hsplit
      have hnot {mid : List Token} (h : marks.reverse = mid ++ t :: back) : False := by
        refine hk (hdedents t (List.mem_reverse.mp ?_))
        rw [h]
        exact List.mem_append_right _ List.mem_cons_self
      rcases List.append_eq_append_iff.mp hsplit with ⟨mid, -, hmid⟩ | ⟨mid, hold, hmid⟩
      · exact (hnot hmid).elim
      · cases mid with
        | nil => exact (hnot (show marks.reverse = [] ++ t :: back from hmid.symm)).elim
        | cons w mid =>
          obtain ⟨rfl, -⟩ := List.cons.inj hmid
          exact old hold

/-- A NEWLINE is given at the end of a line. -/
theorem turn_newline {t : Token} (h : Turn a b) (hb : b.tokens = t :: a.tokens)
    (hk : t.kind = .newline) :
    a.lineStart = false ∧ a.depth = 0 ∧ (∀ c ∈ a.rest.head?, c = '\n') ∧ t.pos = a.pos := by
  cases h with
  | void | space | comment => exact absurd hb.symm (List.cons_ne_self _ _)
  | newline hl hd hs =>
    obtain ⟨rfl, -⟩ := List.cons.inj hb
    exact ⟨hl, hd, by simp [hs], rfl⟩
  | deeper =>
    obtain ⟨rfl, -⟩ := List.cons.inj hb
    cases hk
  | @word kind taken rest _ _ hword =>
    obtain ⟨rfl, -⟩ := List.cons.inj hb
    obtain rfl : kind = .newline := hk
    exact hword.ofLine.elim
  | back =>
    have hmarks : List.replicate _ _ = [t] := List.append_cancel_right hb
    obtain rfl := List.eq_of_mem_replicate (hmarks ▸ List.mem_singleton_self t)
    cases hk

/-- An INDENT is given where no bracket is open. -/
theorem turn_indent {t : Token} (hs : a.Stacked) (h : Turn a b) (hb : b.tokens = t :: a.tokens)
    (hk : t.kind = .indent) : b.depth = 0 := by
  cases h with
  | void | space | comment => exact absurd hb.symm (List.cons_ne_self _ _)
  | deeper hline => exact hs.outside hline.lineStart
  | newline =>
    obtain ⟨rfl, -⟩ := List.cons.inj hb
    cases hk
  | @word kind taken rest _ _ hword =>
    obtain ⟨rfl, -⟩ := List.cons.inj hb
    obtain rfl : kind = .indent := hk
    exact hword.ofLine.elim
  | back hline => exact hs.outside hline.lineStart

/-- At the start of a line none is open. -/
theorem not_pending (h : Reads (start text) s) (hl : s.lineStart = true) : s.pending = false := by
  unfold pending
  cases htokens : s.tokens.head? with
  | none => simp
  | some t => simp [(reads_stacked h).ended hl t htokens]

theorem pending_inside (h : Reads (start text) s) (hp : s.pending = true) : s.lineStart = false := by
  by_contra hl
  rw [not_pending h (by simpa using hl)] at hp
  cases hp

theorem pending_depth (hp : s.pending = true) : s.depth = 0 := by
  simpa using (Bool.and_eq_true_iff.mp hp).1

/-- A token of the result is read, added as the last NEWLINE, or closes a block or the text. -/
theorem finish_split {t : Token} {front back : List Token} (hsplit : z.finish = front ++ t :: back)
    (hdedent : t.kind ≠ .dedent) (hstop : t.kind ≠ .stop) :
    (∃ mid, z.tokens.reverse = front ++ t :: mid) ∨
      z.pending = true ∧ z.tokens.reverse = front ∧ t = ⟨.newline, "", z.pos⟩ := by
  have hclosing (mid : List Token) : z.closing ≠ mid ++ t :: back := by
    intro h
    rcases z.closing_kinds t (h ▸ by simp) with ht | ht
    · exact hdedent ht
    · exact hstop ht
  rw [finish_pending] at hsplit
  rcases List.append_eq_append_iff.mp hsplit with ⟨mid, -, hmid⟩ | ⟨mid, hbefore, hmid⟩
  · exact absurd hmid (hclosing mid)
  cases mid with
  | nil => exact absurd hmid.symm (hclosing [])
  | cons u mid =>
    obtain ⟨rfl, -⟩ := List.cons.inj hmid
    by_cases hp : z.pending = true
    · rw [if_pos hp] at hbefore
      rcases List.eq_nil_or_concat' mid with rfl | ⟨mid, v, rfl⟩
      · obtain ⟨hfront, ht⟩ := List.append_inj' hbefore rfl
        exact .inr ⟨hp, hfront, (List.singleton_inj.mp ht).symm⟩
      · rw [← List.cons_append, ← List.append_assoc] at hbefore
        exact .inl ⟨mid, (List.append_inj' hbefore rfl).1⟩
    · rw [if_neg hp, List.append_nil] at hbefore
      exact .inl ⟨mid, hbefore⟩

/-- The scan that is about to read a NEWLINE, or to add it at the end of the text. -/
theorem newline_finish {t : Token} {front back : List Token} (hz : Reads (start text) z)
    (hend : z.rest = []) (hsplit : z.finish = front ++ t :: back) (hk : t.kind = .newline) :
    ∃ a, Reads (start text) a ∧ Reads a z ∧ a.tokens.reverse = front ∧ a.lineStart = false ∧
      a.depth = 0 ∧ (∀ c ∈ a.rest.head?, c = '\n') ∧ t.pos = a.pos := by
  rcases finish_split hsplit (by simp [hk]) (by simp [hk]) with ⟨mid, hread⟩ | ⟨hp, hfront, rfl⟩
  · obtain ⟨a, b, ha, hab, hbz, hfront, hb⟩ := token_read hz hread (by simp [hk])
    obtain ⟨hl, hd, hrest, hpos⟩ := turn_newline hab.turn hb hk
    exact ⟨a, ha, .head hab hbz, hfront, hl, hd, hrest, hpos⟩
  · exact ⟨z, hz, .refl, hfront, pending_inside hz hp, pending_depth hp, by simp [hend], rfl⟩

end Scan

open Scan

/-- A NEWLINE behind another layout token ends a line of white space that begins with a form feed;
inside a block the line is indented. -/
theorem newline_feedLine {source : String} {ts front back : List Token} {t u : Token}
    (h : tokenize source = .ok ts) (hsplit : ts = front ++ t :: u :: back) (ht : ¬ t.kind.OfLine)
    (hu : u.kind = .newline) : ∃ lead, FeedLine source.toList ts lead u.pos ∧
      (countOf .dedent (front ++ [t]) < countOf .indent (front ++ [t]) → lead ≠ []) := by
  obtain ⟨z, hz, hend, rfl⟩ := tokenize_ok_iff.mp h
  have hsplit' : z.finish = (front ++ [t]) ++ u :: back := by simpa using hsplit
  obtain ⟨a, ha, haz, hfront, hl, hd, hrest, hpos⟩ := newline_finish hz hend hsplit' hu
  have hlast : ∀ v ∈ a.tokens.head?, ¬ v.kind.OfLine := by
    intro v hv
    rw [← List.getLast?_reverse, hfront, List.getLast?_concat] at hv
    exact Option.some.inj hv ▸ ht
  obtain ⟨lead, hline, htop⟩ := idle_feedLine ha ⟨hl, hd, hlast⟩ hrest haz
  refine ⟨lead, hpos ▸ hline, fun hlevels => width_top (reads_stacked ha) ?_ htop⟩
  rintro hnone
  have hheight := (reads_stacked ha).level.height
  have hcount (kind : TokenKind) : countOf kind (front ++ [t]) = countOf kind a.tokens := by
    rw [← hfront]
    exact List.countP_reverse
  rw [hcount, hcount, ← hheight, hnone] at hlevels
  exact Nat.lt_irrefl _ hlevels

/-- A line that opens a block gives more than its INDENT. -/
theorem indent_not_closed {source : String} {ts front back : List Token} {t u : Token}
    (h : tokenize source = .ok ts) (hsplit : ts = front ++ t :: u :: back)
    (ht : t.kind = .indent) : u.kind ≠ .dedent := by
  obtain ⟨z, hz, -, rfl⟩ := tokenize_ok_iff.mp h
  intro hu
  rcases finish_placed (reads_stacked hz) hsplit with hadjoins | ⟨hopen, -⟩
  · rcases hadjoins (.inr hu) with hk | hk <;> cases ht.symm.trans hk
  rcases finish_split hsplit (by simp [ht]) (by simp [ht]) with ⟨mid, hread⟩ | ⟨-, -, rfl⟩
  · obtain ⟨a, b, ha, hab, -, hfront, hb⟩ := token_read hz hread (by simp [ht])
    have hdepth := turn_indent (reads_stacked ha) hab.turn hb ht
    rw [(reads_stacked (ha.tail hab)).depth, hb, List.reverse_cons, hfront] at hdepth
    exact Nat.ne_of_gt hopen hdepth
  · cases ht

/-- The lines of a block before its first word. -/
theorem block_feedLine {source : String} {ts front lines back : List Token} {indent : Token}
    (h : tokenize source = .ok ts) (hsplit : ts = front ++ indent :: (lines ++ back))
    (hindent : indent.kind = .indent) (hlines : ∀ t ∈ lines, t.kind = .newline) :
    ∀ t ∈ lines, ∃ lead, lead ≠ [] ∧ FeedLine source.toList ts lead t.pos := by
  intro t ht
  obtain ⟨before, after, rfl⟩ := List.append_of_mem ht
  -- the token before it is the INDENT or the end of another such line
  obtain ⟨u, mid, hmid, hu⟩ : ∃ u mid, indent :: before = mid ++ [u] ∧ ¬ u.kind.OfLine := by
    rcases List.eq_nil_or_concat' before with rfl | ⟨mid, u, rfl⟩
    · exact ⟨indent, [], rfl, by simp [hindent, TokenKind.OfLine]⟩
    · exact ⟨u, indent :: mid, rfl, by simp [hlines u (by simp), TokenKind.OfLine]⟩
  have hbefore : ts = (front ++ mid) ++ u :: t :: (after ++ back) := calc
    ts = front ++ (indent :: before) ++ t :: (after ++ back) := by simp [hsplit]
    _ = (front ++ mid) ++ u :: t :: (after ++ back) := by simp [hmid]
  obtain ⟨lead, hline, hlead⟩ := newline_feedLine h hbefore hu (hlines t ht)
  refine ⟨lead, hlead ?_, hline⟩
  have hwithin := (tokenize_laidOut h).within front ⟨_, hsplit.symm⟩
  have hcount (kind : TokenKind) (hk : kind ≠ .newline) : countOf kind before = 0 := by
    refine List.countP_eq_zero.mpr fun v hv => ?_
    simp [hlines v (by simp [hv]), hk.symm]
  rw [List.append_assoc, ← hmid, countOf_append, countOf_append, countOf_cons, countOf_cons,
    hcount _ (by decide), hcount _ (by decide), hindent]
  simp
  omega

end Offside.Lexer
