import Offside.Proofs.Lexer.Indentation
import Offside.Proofs.Lexer.Slices

/-!
What becomes of the characters of a source. A character that is no blank and stands in no comment
lies in one token, unless a carriage return is the first character of its line, behind blanks at
most, and no bracket is open there: what follows such a carriage return is passed over with the
line.
-/

namespace Offside

def Token.Covers (t : Token) (text : List Char) (i : Nat) : Prop :=
  ∃ n, t.Sliced text n ∧ n ≤ i ∧ i < n + t.lexeme.toList.length

namespace Lexer

/-- A character that is not blank and ends no line. -/
structure Plain (c : Char) : Prop where
  space : isSpace c = false
  newline : c ≠ '\n'

/-- On the line of a `#` that is in no string, and not before it. -/
def InComment (text : List Char) (ts : List Token) (i : Nat) : Prop :=
  ∃ j ≤ i, text[j]? = some '#' ∧ (∀ k, j ≤ k → k ≤ i → text[k]? ≠ some '\n') ∧
    ∀ t ∈ ts, t.kind = .string → ¬ t.Covers text j

/-- The brackets that are open at an offset. -/
def openAt (text : List Char) (ts : List Token) (n : Nat) : Nat :=
  bracketsOpen (ts.filter fun t => t.pos.Before (Position.start.after (text.take n)))

/-- Behind a carriage return that comes first in its line, with no bracket open. -/
def Dropped (text : List Char) (ts : List Token) (i : Nat) : Prop :=
  ∃ lines lead body more, text = lines ++ (lead ++ '\r' :: body ++ more) ∧
    lines.length + lead.length < i ∧ i ≤ lines.length + lead.length + body.length ∧
    AtMargin lines ∧ IsIndentation lead ∧ OneLine body ∧ openAt text ts lines.length = 0

/-- Exactly one token of a list covers a character. -/
def CoveredOnce (text : List Char) (ts : List Token) (i : Nat) : Prop :=
  ∃ front t back, ts = front ++ t :: back ∧ t.Covers text i ∧
    ∀ u ∈ front ++ back, ¬ u.Covers text i

variable {text before taken : List Char} {ts us : List Token} {t u : Token} {i n : Nat}

/-! ### Tokens and offsets -/

theorem Apart.not_both (h : Apart text t u) (ht : t.Covers text i) : ¬ u.Covers text i := by
  rintro ⟨n, hn, hni, -⟩
  obtain ⟨m, hm, -, him⟩ := ht
  have := h m n hm.denoted hn.denoted
  omega

/-- What lies in a token lies in no other. -/
theorem Faithful.covered_once (h : Faithful text ts) (ht : t ∈ ts) (hc : t.Covers text i) :
    CoveredOnce text ts i := by
  obtain ⟨front, back, rfl⟩ := List.append_of_mem ht
  obtain ⟨-, hback, hfront⟩ := List.pairwise_append.mp h.apart
  refine ⟨front, t, back, rfl, hc, fun u hu huc => ?_⟩
  rcases List.mem_append.mp hu with hu | hu
  · exact (hfront u hu t List.mem_cons_self).not_both huc hc
  · exact (List.rel_of_pairwise_cons hback hu).not_both hc huc

/-- The tokens of a list stand at an offset or later. -/
def From (text : List Char) (n : Nat) (ts : List Token) : Prop :=
  ∀ t ∈ ts, ∃ m, n ≤ m ∧ t.pos.Denotes text m

theorem From.mono {m : Nat} (h : From text n ts) (hm : m ≤ n) : From text m ts := by
  intro t ht
  obtain ⟨k, hk, hd⟩ := h t ht
  exact ⟨k, Nat.le_trans hm hk, hd⟩

theorem From.append (hts : From text n ts) (hus : From text n us) : From text n (ts ++ us) :=
  List.forall_mem_append.mpr ⟨hts, hus⟩

theorem From.not_covers (h : From text n ts) (hi : i < n) : ∀ t ∈ ts, ¬ t.Covers text i := by
  rintro t ht ⟨m, hm, hmi, -⟩
  obtain ⟨k, hk, hd⟩ := h t ht
  have := hm.denoted.unique hd
  omega

theorem Tiled.not_covers (h : Tiled text n ts) (hi : n ≤ i) : ∀ t ∈ ts, ¬ t.Covers text i := by
  rintro t ht ⟨m, hm, -, him⟩
  obtain ⟨k, hk, hle⟩ := h.sliced t ht
  have := hm.denoted.unique hk.denoted
  omega

theorem denotes_take (h : n ≤ text.length) :
    (Position.start.after (text.take n)).Denotes text n :=
  Position.denotes_iff.mpr ⟨h, rfl⟩

/-- Tokens from an offset on open no bracket before it. -/
theorem openAt_append (hn : n ≤ text.length) (h : From text n us) :
    openAt text (ts ++ us) n = openAt text ts n := by
  have hnone : us.filter (fun t => t.pos.Before (Position.start.after (text.take n))) = [] := by
    refine List.filter_eq_nil_iff.mpr fun u hu => ?_
    obtain ⟨m, hm, hd⟩ := h u hu
    simpa using (denotes_take hn).not_before hd hm
  rw [openAt, List.filter_append, hnone, List.append_nil, openAt]

theorem bracketsOpen_filter {p : Token → Bool} (h : ∀ t ∈ ts, p t = false → t.lexeme = "") :
    bracketsOpen (ts.filter p) = bracketsOpen ts := by
  induction ts using List.reverseRecOn with
  | nil => rfl
  | append_singleton ts t ih =>
    obtain ⟨hts, ht⟩ := List.forall_mem_append.mp h
    rw [List.filter_append, bracketsOpen_concat, ← ih hts]
    cases hp : p t with
    | true => simp [hp, bracketsOpen_concat]
    | false =>
      have hempty := List.forall_mem_singleton.mp ht hp
      simp [hp, wordDepth, Token.word, hempty]

/-- At an offset where the text so far ends, the tokens so far have opened what is open. -/
theorem Tiled.openAt_eq (h : Tiled text n ts) (hn : n ≤ text.length) :
    openAt text ts.reverse n = bracketsOpen ts.reverse := by
  refine bracketsOpen_filter fun t ht hp => ?_
  obtain ⟨m, hm, hle⟩ := h.sliced t (List.mem_reverse.mp ht)
  have hge : n ≤ m := by
    by_contra hlt
    have := hm.denoted.before (denotes_take hn) (Nat.lt_of_not_le hlt)
    simp [this] at hp
  have hnil : t.lexeme.toList = [] := List.length_eq_zero_iff.mp (by omega)
  simpa using hnil

namespace Scan

variable {a b s : Scan}

/-! ### The turn that takes a character -/

theorem Placed.within (h : s.Placed text before) : before.length ≤ text.length := by
  rw [h.whole, List.length_append]
  exact Nat.le_add_right _ _

theorem turn_adds (h : a.Placed text before) (ht : Turn a b) :
    ∃ new, b.tokens = new ++ a.tokens ∧ From text before.length new := by
  cases ht with
  | void _ _ _ | space _ _ _ | comment _ _ _ _ => exact ⟨[], rfl, List.forall_mem_nil _⟩
  | @deeper lead more c hline _ =>
    refine ⟨[_], rfl, List.forall_mem_singleton.mpr ⟨(before ++ lead).length, by simp, ?_⟩⟩
    exact (h.settled hline .indent).1.denotes
  | @back lead more c inner outer hline _ _ _ =>
    refine ⟨List.replicate inner.length _, rfl, fun t ht => ⟨(before ++ lead).length, by simp, ?_⟩⟩
    rw [List.eq_of_mem_replicate ht]
    exact (h.settled hline .dedent).1.denotes
  | newline _ _ _ | word _ _ _ =>
    exact ⟨[_], rfl, List.forall_mem_singleton.mpr ⟨_, Nat.le_refl _, h.denotes⟩⟩

/-- The tokens of a whole reading are those so far and others from here on. -/
theorem reads_finish (h : a.Placed text before) (hr : Reads a s) :
    ∃ later, s.finish = a.tokens.reverse ++ later ∧ From text before.length later := by
  induction hr using Relation.ReflTransGen.head_induction_on generalizing before with
  | refl =>
    have hmark (kind : TokenKind) : From text before.length [⟨kind, "", s.pos⟩] :=
      List.forall_mem_singleton.mpr ⟨_, Nat.le_refl _, h.denotes⟩
    obtain ⟨ends, hends, hfinish⟩ := finish_ends s
    refine ⟨ends ++ s.closing, by rw [hfinish, List.append_assoc], ?_⟩
    refine .append ?_ (.append (fun t ht => ?_) (hmark .stop))
    · rcases hends with ⟨rfl, -⟩ | ⟨rfl, -⟩
      · exact hmark .newline
      · exact List.forall_mem_nil _
    · rw [List.eq_of_mem_replicate ht]
      exact hmark .dedent _ List.mem_cons_self
  | head hnext _ ih =>
    obtain ⟨taken, -, hplaced⟩ := turn_placed h hnext.turn
    obtain ⟨new, hnew, hfrom⟩ := turn_adds h hnext.turn
    obtain ⟨later, hlater, hfrom'⟩ := ih hplaced
    refine ⟨new.reverse ++ later, by rw [hlater, hnew, List.reverse_append, List.append_assoc], ?_⟩
    refine .append (fun t ht => hfrom t (List.mem_reverse.mp ht)) (hfrom'.mono ?_)
    simp

/-- The scan before a turn, with what the turn takes. -/
structure Takes (text before taken : List Char) (a b : Scan) : Prop where
  turn : Turn a b
  here : a.Placed text before
  there : b.Placed text (before ++ taken)
  rest : a.rest = taken ++ b.rest

/-- Each character of the text is taken by some turn. -/
theorem taken_by_turn (h : a.Placed text before) (hr : Reads a s) (hend : s.rest = [])
    (hi : before.length ≤ i) (hlt : i < text.length) :
    ∃ c d front taken, Reads a c ∧ Takes text front taken c d ∧ Reads d s ∧
      front.length ≤ i ∧ i < (front ++ taken).length := by
  induction hr using Relation.ReflTransGen.head_induction_on generalizing before with
  | refl =>
    rw [h.whole, hend, List.append_nil] at hlt
    omega
  | @head a c hnext hreads ih =>
    obtain ⟨taken, hrest, hplaced⟩ := turn_placed h hnext.turn
    by_cases hin : i < (before ++ taken).length
    · exact ⟨a, c, before, taken, .refl, ⟨hnext.turn, h, hplaced, hrest⟩, hreads, hi, hin⟩
    · obtain ⟨c', d, front, taken', hto, hrest⟩ := ih hplaced (Nat.le_of_not_lt hin)
      exact ⟨c', d, front, taken', .head hnext hto, hrest⟩

/-! ### The line of a character -/

/-- A line that is being read began within brackets, or with content. -/
def Begun (text before : List Char) (s : Scan) : Prop :=
  s.lineStart = false → ∃ lines current, before = lines ++ current ∧ AtMargin lines ∧
    OneLine current ∧ (0 < openAt text s.tokens.reverse lines.length ∨
      ∃ lead c more, current ++ s.rest = lead ++ c :: more ∧ IsIndentation lead ∧ IsContent c)

/-- A line goes on with text that has no end of a line. -/
theorem Begun.extend (h : Begun text before a) (ht : Takes text before taken a b)
    (hl : a.lineStart = false) (hone : OneLine taken) : Begun text (before ++ taken) b := by
  intro _
  obtain ⟨lines, current, rfl, hmargin, hcurrent, hbegun⟩ := h hl
  refine ⟨lines, current ++ taken, by simp, hmargin, hcurrent.append hone, ?_⟩
  rcases hbegun with hopen | ⟨lead, c, more, hsplit, hlead⟩
  · obtain ⟨new, hnew, hfrom⟩ := turn_adds ht.here ht.turn
    have hle : lines.length ≤ text.length := by
      have := ht.here.within
      rw [List.length_append] at this
      omega
    refine .inl ?_
    rw [hnew, List.reverse_append, openAt_append hle]
    · exact hopen
    · exact fun t ht => (hfrom.mono (by simp)) t (List.mem_reverse.mp ht)
  · exact .inr ⟨lead, c, more, by rw [← hsplit, ht.rest, List.append_assoc], hlead⟩

theorem turn_begun (h : Begun text before a) (hs : a.Stacked) (ht : Takes text before taken a b) :
    Begun text (before ++ taken) b := by
  have hcontent {lead more : List Char} {c : Char} (hline : a.AtLine lead c more)
      (hrest : b.rest = c :: more) : Begun text (before ++ taken) b := by
    intro _
    have htaken : lead = taken := by
      have := ht.rest
      rw [hline.text, hrest] at this
      exact List.append_cancel_right this
    refine ⟨before, taken, rfl, ht.here.margin hline.lineStart (by simp [hline.text]), ?_, .inr ?_⟩
    · exact htaken ▸ hline.lead.oneLine
    · exact ⟨lead, c, more, by rw [hrest, htaken], hline.lead, hline.content⟩
  have htaken (cs : List Char) (hrest : a.rest = cs ++ b.rest) : taken = cs :=
    List.append_cancel_right (ht.rest.symm.trans hrest)
  have hturn := ht.turn
  cases hturn with
  | void hl _ _ => exact fun hl' => absurd (hl.symm.trans hl') Bool.noConfusion
  | deeper hline _ => exact hcontent hline rfl
  | back hline _ _ _ => exact hcontent hline rfl
  | newline _ _ _ => exact fun hl => absurd hl Bool.noConfusion
  | @space c rest hl hrest hspace =>
    obtain rfl := htaken [c] hrest
    rcases hspace with hspace | ⟨rfl, hdepth⟩
    · refine h.extend ht hl (.cons ?_ List.not_mem_nil)
      rintro rfl
      revert hspace
      decide
    · refine fun _ => ⟨before ++ ['\n'], [], by simp, atMargin_concat before, List.not_mem_nil, ?_⟩
      refine .inl ?_
      rw [ht.there.tiled.openAt_eq ht.there.within]
      exact Nat.lt_of_lt_of_eq hdepth hs.depth
  | @comment body rest hl hrest hone _ =>
    obtain rfl := htaken ('#' :: body) hrest
    exact h.extend ht hl (hone.cons (by decide))
  | word hl hrest hword =>
    obtain rfl := htaken _ hrest
    exact h.extend ht hl hword.oneLine

theorem start_begun (cs : List Char) : Begun text [] (start cs) := nofun

end Scan

/-- Of two lines around one place, the other does not start later. -/
theorem margin_le {lines current rest lines' rest' : List Char}
    (h : lines ++ (current ++ rest) = lines' ++ rest') (hcurrent : OneLine current)
    (hmargin : AtMargin lines') (hi : i < lines.length + current.length)
    (hi' : lines'.length ≤ i) : lines'.length ≤ lines.length := by
  rcases List.append_eq_append_iff.mp h with ⟨mid, rfl, hmid⟩ | ⟨mid, rfl, -⟩
  · rw [List.length_append] at hi' ⊢
    rcases List.eq_nil_or_concat' mid with rfl | ⟨mid, c, rfl⟩
    · simp
    · obtain rfl : c = '\n' := hmargin c (by simp [← List.append_assoc])
      refine absurd ?_ hcurrent
      have hpre : mid ++ ['\n'] <+: current := by
        refine List.prefix_of_prefix_length_le ?_ (List.prefix_append current rest) (by omega)
        rw [hmid]
        exact List.prefix_append _ _
      exact hpre.subset (by simp)
  · simp

theorem content_unique {lead lead' more more' : List Char} {c c' : Char}
    (h : lead ++ c :: more = lead' ++ c' :: more') (hlead : IsIndentation lead)
    (hlead' : IsIndentation lead') (hc : isIndentation c = false)
    (hc' : isIndentation c' = false) : c = c' := by
  have hstop : ∀ d ∈ (c :: more).head?, isIndentation d = false := by simpa using hc
  have hstop' : ∀ d ∈ (c' :: more').head?, isIndentation d = false := by simpa using hc'
  have hdrop := (takeWhile_all hlead hstop).2
  have hdrop' := (takeWhile_all hlead' hstop').2
  rw [h, hdrop'] at hdrop
  exact (List.cons.inj hdrop).1.symm

namespace Scan

variable {a b s : Scan} {later : List Token}

/-- Nothing is dropped from a line that began within brackets, or with content. -/
theorem Begun.not_dropped (h : Begun text before a) (ht : Takes text before taken a b)
    (hl : a.lineStart = false) (hone : OneLine taken) (hi : before.length ≤ i)
    (hi' : i < (before ++ taken).length) (hlater : From text before.length later) :
    ¬ Dropped text (a.tokens.reverse ++ later) i := by
  rintro ⟨lines', lead', body, more', hsplit, hlow, hhigh, hmargin', hlead', hbody, hopen'⟩
  obtain ⟨lines, current, rfl, hmargin, hcurrent, hbegun⟩ := h hl
  have hwhole : text = lines ++ ((current ++ taken) ++ b.rest) := by
    rw [ht.here.whole, ht.rest]
    simp
  have hsame := hwhole.symm.trans hsplit
  have hle := margin_le hsame (hcurrent.append hone) hmargin' (i := i) (by simpa using hi')
    (by omega)
  have hline : OneLine (lead' ++ '\r' :: body) := hlead'.oneLine.append (hbody.cons (by decide))
  have hge := margin_le hsame.symm hline hmargin (i := i) (by simp; omega)
    (by rw [List.length_append] at hi; omega)
  obtain ⟨rfl, htail⟩ := List.append_inj hsame (Nat.le_antisymm hge hle)
  rcases hbegun with hopen | ⟨lead, c, more, hcontent, hlead, hc⟩
  · have hwithin := ht.here.within
    rw [List.length_append] at hwithin
    rw [openAt_append (by omega) (hlater.mono (by simp))] at hopen'
    exact absurd hopen' (Nat.ne_of_gt hopen)
  · have hrest : current ++ a.rest = lead' ++ '\r' :: (body ++ more') := by
      rw [ht.rest, ← List.append_assoc, htail]
      simp
    exact hc.carriage (content_unique (hcontent.symm.trans hrest) hlead hlead' hc.indentation
      (by decide))

theorem Takes.getElem? (ht : Takes text before taken a b) {k : Nat} (hk : k < taken.length) :
    text[before.length + k]? = taken[k]? := by
  rw [ht.here.whole, ht.rest, List.getElem?_append_right (by omega), Nat.add_sub_cancel_left,
    List.getElem?_append_left hk]

/-- Text that is passed over lies in no token. -/
theorem Takes.not_covers (ht : Takes text before taken a b)
    (hlater : From text (before ++ taken).length later) (hi : before.length ≤ i)
    (hi' : i < (before ++ taken).length) : ∀ t ∈ a.tokens.reverse ++ later, ¬ t.Covers text i := by
  intro t hmem
  rcases List.mem_append.mp hmem with hmem | hmem
  · exact ht.here.tiled.not_covers hi t (List.mem_reverse.mp hmem)
  · exact hlater.not_covers hi' t hmem

end Scan

theorem inComment_of {front body tail : List Char} (h : text = front ++ ('#' :: body ++ tail))
    (hone : OneLine body) (hi : front.length ≤ i) (hi' : i < front.length + ('#' :: body).length)
    (hts : ∀ t ∈ ts, ¬ t.Covers text front.length) : InComment text ts i := by
  have hget {k : Nat} (hk : k < ('#' :: body).length) :
      text[front.length + k]? = ('#' :: body)[k]? := by
    rw [h, List.getElem?_append_right (by omega), Nat.add_sub_cancel_left,
      List.getElem?_append_left hk]
  refine ⟨front.length, hi, hget (Nat.succ_pos _), fun k hk hki hnewline => ?_,
    fun t ht _ => hts t ht⟩
  obtain ⟨k, rfl⟩ := Nat.exists_eq_add_of_le hk
  rw [hget (by omega)] at hnewline
  exact hone.cons (by decide) (List.mem_of_getElem? hnewline)

theorem Plain.not_mem {c : Char} (hp : Plain c) {lead : List Char} (hlead : IsIndentation lead) :
    c ∉ lead := by
  intro hmem
  have hblank := hlead c hmem
  have hspace := hp.space
  simp only [isIndentation, isSpace] at hblank hspace
  simp_all

/-- A character of a line without content that is not blank stands behind its first. -/
theorem Void.plain {taken rest : List Char} {k : Nat} {c : Char} (h : Void taken rest)
    (hc : taken[k]? = some c) (hp : Plain c) : ∃ lead d body ending,
      taken = lead ++ (d :: body ++ ending) ∧ IsIndentation lead ∧ OneLine body ∧
      (d = '\r' ∧ lead.length < k ∨ d = '#') ∧ lead.length ≤ k ∧
      k < lead.length + (d :: body).length := by
  obtain ⟨lead, body, ending, rfl, hlead, hone, hhead, hending⟩ := h.parts
  have hk : lead.length ≤ k := by
    by_contra hk
    rw [List.getElem?_append_left (Nat.lt_of_not_le hk)] at hc
    exact hp.not_mem hlead (List.mem_of_getElem? hc)
  obtain ⟨m, rfl⟩ := Nat.exists_eq_add_of_le hk
  rw [List.getElem?_append_right hk, Nat.add_sub_cancel_left] at hc
  have hm : m < body.length := by
    by_contra hm
    rw [List.getElem?_append_right (Nat.le_of_not_lt hm)] at hc
    have hmem := List.mem_of_getElem? hc
    rcases hending with rfl | ⟨rfl, -⟩
    · exact hp.newline (List.mem_singleton.mp hmem)
    · cases hmem
  cases body with
  | nil => exact absurd hm (Nat.not_lt_zero _)
  | cons d body =>
    refine ⟨lead, d, body, ending, rfl, hlead, fun h => hone (List.mem_cons_of_mem d h), ?_, hk,
      Nat.add_lt_add_left hm _⟩
    rcases hhead d rfl with rfl | rfl
    · refine .inl ⟨rfl, Nat.lt_add_of_pos_right (Nat.pos_of_ne_zero ?_)⟩
      rintro rfl
      cases hc
      exact absurd hp.space (by decide)
    · exact .inr rfl

namespace Scan

variable {a b s : Scan} {later : List Token} {c : Char}

/-- A line without content is a comment, or dropped. -/
theorem Takes.passes (ht : Takes text before taken a b) (hs : a.Stacked)
    (hl : a.lineStart = true) (hvoid : Void taken b.rest)
    (hlater : From text (before ++ taken).length later) {k : Nat} (hc : taken[k]? = some c)
    (hp : Plain c) : InComment text (a.tokens.reverse ++ later) (before.length + k) ∨
      (∀ t ∈ a.tokens.reverse ++ later, ¬ t.Covers text (before.length + k)) ∧
        Dropped text (a.tokens.reverse ++ later) (before.length + k) := by
  have hwhole : text = before ++ (taken ++ b.rest) := by rw [ht.here.whole, ht.rest]
  obtain ⟨lead, d, body, ending, rfl, hlead, hone, hd, hge, hlt⟩ := hvoid.plain hc hp
  rcases hd with ⟨rfl, hbehind⟩ | rfl
  · refine .inr ⟨ht.not_covers hlater (by simp) ?_, before, lead, body, ending ++ b.rest, ?_,
      by omega, ?_, ?_, hlead, hone, ?_⟩
    · simp only [List.length_append, List.length_cons] at hlt ⊢
      omega
    · rw [hwhole]
      simp
    · rw [List.length_cons] at hlt
      omega
    · exact ht.here.margin hl (by simp [ht.rest])
    · rw [openAt_append ht.here.within (hlater.mono (by simp)),
        ht.here.tiled.openAt_eq ht.here.within]
      exact hs.depth.symm.trans (hs.outside hl)
  · have hsplit : text = (before ++ lead) ++ ('#' :: body ++ (ending ++ b.rest)) := by
      rw [hwhole]
      simp
    refine .inl (inComment_of hsplit hone ?_ ?_ (ht.not_covers hlater ?_ ?_))
    · simpa using hge
    · rw [List.length_append]
      omega
    · simp
    · simp

/-- A turn that takes a plain character makes it part of a token or drops it, or passes over a
comment. -/
theorem Takes.keeps (ht : Takes text before taken a b) (hs : a.Stacked) (hb : Begun text before a)
    (hlater : From text (before ++ taken).length later) (hi : before.length ≤ i)
    (hi' : i < (before ++ taken).length) (hc : text[i]? = some c) (hp : Plain c) :
    InComment text (b.tokens.reverse ++ later) i ∨
    (∃ t ∈ b.tokens.reverse ++ later, t.Covers text i) ∧
      ¬ Dropped text (b.tokens.reverse ++ later) i ∨
    (∀ t ∈ b.tokens.reverse ++ later, ¬ t.Covers text i) ∧
      Dropped text (b.tokens.reverse ++ later) i := by
  have htaken (cs : List Char) (hrest : a.rest = cs ++ b.rest) : taken = cs :=
    List.append_cancel_right (ht.rest.symm.trans hrest)
  obtain ⟨k, rfl⟩ := Nat.exists_eq_add_of_le hi
  have hk : k < taken.length := by simpa using hi'
  have hck : taken[k]? = some c := (ht.getElem? hk).symm.trans hc
  have hmem := List.mem_of_getElem? hck
  have hwhole : text = before ++ (taken ++ b.rest) := by rw [ht.here.whole, ht.rest]
  have hturn := ht.turn
  cases hturn with
  | void hl hrest hvoid =>
    obtain rfl := htaken _ hrest
    exact (ht.passes hs hl hvoid hlater hck hp).imp_right .inr
  | deeper hline _ | back hline _ _ _ =>
    obtain rfl := htaken _ hline.text
    exact absurd hmem (hp.not_mem hline.lead)
  | newline _ _ hrest =>
    obtain rfl := htaken ['\n'] hrest
    exact absurd (List.mem_singleton.mp hmem) hp.newline
  | @space d _ _ hrest hspace =>
    obtain rfl := htaken [d] hrest
    obtain rfl := List.mem_singleton.mp hmem
    rcases hspace with hspace | ⟨hnewline, -⟩
    · exact absurd (hspace.symm.trans hp.space) Bool.noConfusion
    · exact absurd hnewline hp.newline
  | @comment body _ _ hrest hone _ =>
    obtain rfl := htaken ('#' :: body) hrest
    refine .inl (inComment_of hwhole hone hi (by simpa using hi') ?_)
    exact ht.not_covers hlater (Nat.le_refl _) (by simp)
  | @word kind _ _ hl hrest hword =>
    obtain rfl := htaken _ hrest
    refine .inr (.inl ⟨⟨_, List.mem_append_left _ (List.mem_reverse.mpr List.mem_cons_self),
      before.length, ht.here.sliced hrest kind, hi, by simpa using hi'⟩, ?_⟩)
    have hword' : From text before.length (⟨kind, String.ofList taken, a.pos⟩ :: later) :=
      List.forall_mem_cons.mpr ⟨⟨_, Nat.le_refl _, ht.here.denotes⟩, hlater.mono (by simp)⟩
    have hnot := hb.not_dropped ht hl hword.oneLine hi hi' hword'
    rwa [List.append_cons, ← List.reverse_cons] at hnot

theorem reads_begun (h : Reads (start text) s) :
    ∃ before, s.Placed text before ∧ Begun text before s := by
  induction h with
  | refl => exact ⟨[], start_placed text, start_begun text⟩
  | @tail a b hreads hnext ih =>
    obtain ⟨before, hplaced, hbegun⟩ := ih
    obtain ⟨taken, hrest, hplaced'⟩ := turn_placed hplaced hnext.turn
    exact ⟨before ++ taken, hplaced',
      turn_begun hbegun (reads_stacked hreads) ⟨hnext.turn, hplaced, hplaced', hrest⟩⟩

end Scan

open Scan

/-- A plain character of a source is in a comment, or part of a token, or dropped. -/
theorem tokenize_keeps {source : String} {ts : List Token} (h : tokenize source = .ok ts) {i : Nat}
    {c : Char} (hc : source.toList[i]? = some c) (hp : Plain c) :
    InComment source.toList ts i ∨
    (∃ t ∈ ts, t.Covers source.toList i) ∧ ¬ Dropped source.toList ts i ∨
    (∀ t ∈ ts, ¬ t.Covers source.toList i) ∧ Dropped source.toList ts i := by
  obtain ⟨s, hreads, hend, rfl⟩ := tokenize_ok_iff.mp h
  obtain ⟨hlt, -⟩ := List.getElem?_eq_some_iff.mp hc
  obtain ⟨a, b, before, taken, hto, ht, hrest, hi, hi'⟩ :=
    taken_by_turn (start_placed source.toList) hreads hend (Nat.zero_le i) hlt
  obtain ⟨later, hlater, hfrom⟩ := reads_finish ht.there hrest
  obtain ⟨before', hplaced, hbegun⟩ := reads_begun hto
  obtain rfl : before' = before :=
    List.append_cancel_right (hplaced.whole.symm.trans ht.here.whole)
  rw [hlater]
  exact ht.keeps (reads_stacked hto) hbegun hfrom hi hi' hc hp

/-- No text of a source is lost but what is dropped behind a carriage return: everything else that
is no blank and stands in no comment lies in exactly one token. -/
theorem text_kept_or_dropped {source : String} {ts : List Token} (h : tokenize source = .ok ts)
    (i : Nat) (c : Char) (hc : source.toList[i]? = some c) (hp : Plain c)
    (hcomment : ¬ InComment source.toList ts i) :
    CoveredOnce source.toList ts i ∧ ¬ Dropped source.toList ts i ∨
      (∀ t ∈ ts, ¬ t.Covers source.toList i) ∧ Dropped source.toList ts i := by
  rcases tokenize_keeps h hc hp with hin | ⟨⟨t, hmem, hcov⟩, hnot⟩ | hout
  · exact absurd hin hcomment
  · exact .inl ⟨(tokenize_faithful h).covered_once hmem hcov, hnot⟩
  · exact .inr hout

theorem name_kept_or_dropped : ∃ ts, tokenize "x\n" = .ok ts ∧
    (CoveredOnce "x\n".toList ts 0 ∧ ¬ Dropped "x\n".toList ts 0 ∨
      (∀ t ∈ ts, ¬ t.Covers "x\n".toList 0) ∧ Dropped "x\n".toList ts 0) := by
  have hts : tokenize "x\n" =
      .ok [⟨.identifier, "x", ⟨1, 1⟩⟩, ⟨.newline, "\n", ⟨1, 2⟩⟩, ⟨.stop, "", ⟨2, 1⟩⟩] := by rfl
  refine ⟨_, hts, text_kept_or_dropped hts 0 'x' (by rfl) ⟨by decide, by decide⟩ ?_⟩
  rintro ⟨j, hj, hc, -⟩
  obtain rfl := Nat.le_zero.mp hj
  exact absurd hc (by decide)

/-- The `x` of a line that begins with a carriage return lies in no token. -/
theorem leading_return_drops_text :
    ∃ ts, tokenize "\rx\n" = .ok ts ∧ "\rx\n".toList[1]? = some 'x' ∧ Plain 'x' ∧
      ¬ InComment "\rx\n".toList ts 1 ∧ ¬ CoveredOnce "\rx\n".toList ts 1 := by
  refine ⟨[⟨.stop, "", ⟨2, 1⟩⟩], by rfl, by rfl, ⟨by decide, by decide⟩, ?_, ?_⟩
  · rintro ⟨j, hj, hc, -⟩
    interval_cases j <;> exact absurd hc (by decide)
  · rintro ⟨front, t, back, hts, ⟨n, -, hn, hlt⟩, -⟩
    have ht : t ∈ front ++ t :: back := by simp
    rw [← hts, List.mem_singleton] at ht
    rw [ht] at hlt
    exact absurd hlt (Nat.not_lt_of_le hn)

end Lexer

end Offside
