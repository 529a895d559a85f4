import Offside.Proofs.Lexer.FormFeed
import Offside.Proofs.Reference.Flaw
import Offside.Proofs.Reference.Scan
import Offside.Proofs.Reference.Statement

/-!
Sources with the end of a line behind them, which is how the grammar reads them. What the parser
accepts is built of the tokens that the lexer finds in such a text too. They are laid out unless a
block has a line of white space that begins with a form feed, and all of the text is in them unless
the lexer drops some behind a carriage return.
-/

namespace Offside.Lexer

variable {source : String} {ts us : List Token} {lead : List Char} {p : Position} {i n : Nat}

/-- With the end of a line behind it a text is read alike up to its end. -/
theorem tokenize_appended (hts : tokenize source = .ok ts)
    (hus : tokenize (source ++ "\n") = .ok us) :
    ∃ front later later', ts = front ++ later ∧ us = front ++ later' ∧
      From source.toList source.toList.length later ∧
      From (source.toList ++ ['\n']) source.toList.length later' := by
  obtain ⟨s, hs, hsend, rfl⟩ := tokenize_ok_iff.mp hts
  obtain ⟨z, hz, hzend, rfl⟩ := tokenize_ok_iff.mp hus
  rw [String.toList_append] at hz
  obtain ⟨before, hplaced⟩ := Scan.reads_placed hs
  have hwhole := hplaced.whole
  rw [hsend, List.append_nil] at hwhole
  obtain ⟨later, hlater, hfrom⟩ := Scan.reads_finish hplaced .refl
  rw [← hwhole] at hfrom
  -- the same tokens have been read of the longer text, and its reading goes on from there
  obtain ⟨s', hs', htokens, hlong⟩ : ∃ s', Scan.Reads (.start (source.toList ++ ['\n'])) s' ∧
      s'.tokens = s.tokens ∧ s'.rest.length ≤ 1 := by
    rcases Scan.reads_appended hs with happended | ⟨hrest, -, p, happended⟩
    · exact ⟨_, happended, rfl, by simp [hsend]⟩
    · exact ⟨_, happended, rfl, by simp [hrest]⟩
  obtain ⟨before', hplaced'⟩ := Scan.reads_placed hs'
  obtain ⟨later', hlater', hfrom'⟩ := Scan.reads_finish hplaced' (Scan.reads_on hs' hz hzend)
  refine ⟨_, later, later', hlater, htokens ▸ hlater', hfrom, hfrom'.mono ?_⟩
  have hlen := congrArg List.length hplaced'.whole
  simp only [List.length_append, List.length_singleton] at hlen
  omega

theorem openAt_ended (hts : tokenize source = .ok ts) (hus : tokenize (source ++ "\n") = .ok us)
    (hn : n ≤ source.toList.length) :
    openAt (source.toList ++ ['\n']) us n = openAt source.toList ts n := by
  obtain ⟨front, later, later', rfl, rfl, hfrom, hfrom'⟩ := tokenize_appended hts hus
  rw [openAt_append (by simp; omega) (hfrom'.mono hn), openAt_append hn (hfrom.mono hn), openAt,
    openAt, List.take_append_of_le_length hn]

/-- A text without a line break that stands in one that ends in a line break, stands before that. -/
theorem before_end {cs front line more : List Char} (hline : OneLine line) (hne : line ≠ [])
    (h : cs ++ ['\n'] = front ++ line ++ more) :
    ∃ more', more = more' ++ ['\n'] ∧ cs = front ++ line ++ more' := by
  rcases List.eq_nil_or_concat' more with rfl | ⟨more', c, rfl⟩
  · obtain ⟨line', c, rfl⟩ := (List.eq_nil_or_concat' line).resolve_left hne
    rw [List.append_nil, ← List.append_assoc] at h
    obtain rfl := List.singleton_inj.mp (List.append_inj' h rfl).2
    exact absurd (List.mem_append_right _ (List.mem_singleton_self _)) hline
  · rw [← List.append_assoc] at h
    obtain ⟨hcs, hc⟩ := List.append_inj' h rfl
    exact ⟨more', by rw [List.singleton_inj.mp hc], hcs⟩

theorem Feed.oneLine {cs : List Char} (h : Feed cs) : OneLine cs := by
  obtain ⟨blanks, comment, rfl, hblanks, hcomment⟩ := h
  refine .cons (by decide) (.append (Scan.space_oneLine hblanks) ?_)
  rcases hcomment with rfl | ⟨body, rfl, hbody⟩
  · exact List.not_mem_nil
  · exact .cons (by decide) hbody

theorem feedLine_ended (hts : tokenize source = .ok ts) (hus : tokenize (source ++ "\n") = .ok us)
    (h : FeedLine (source ++ "\n").toList us lead p) : FeedLine source.toList ts lead p := by
  rw [String.toList_append] at h
  obtain ⟨lines, feed, more, htext, hmargin, hlead, hfeed, hmore, rfl, hopen⟩ := h
  have hne : lead ++ feed ≠ [] := by
    obtain ⟨blanks, comment, rfl, -⟩ := hfeed
    simp
  obtain ⟨more, rfl, hsource⟩ := before_end (hlead.oneLine.append hfeed.oneLine) hne htext
  refine ⟨lines, feed, more, hsource, hmargin, hlead, hfeed, fun c hc => hmore c ?_, rfl, ?_⟩
  · rw [List.head?_append_of_ne_nil]
    · exact hc
    · rintro rfl
      cases hc
  · rw [← openAt_ended hts hus]
    · exact hopen
    · rw [hsource]
      simp

theorem dropped_ended (hts : tokenize source = .ok ts) (hus : tokenize (source ++ "\n") = .ok us)
    (h : Dropped (source ++ "\n").toList us i) : Dropped source.toList ts i := by
  rw [String.toList_append] at h
  obtain ⟨lines, lead, body, more, htext, hlow, hhigh, hmargin, hlead, hbody, hopen⟩ := h
  have hline : OneLine (lead ++ '\r' :: body) := hlead.oneLine.append (.cons (by decide) hbody)
  have htext : source.toList ++ ['\n'] = lines ++ (lead ++ '\r' :: body) ++ more := by
    simpa using htext
  obtain ⟨more, rfl, hsource⟩ := before_end hline (by simp) htext
  refine ⟨lines, lead, body, more, by simpa using hsource, hlow, hhigh, hmargin, hlead, hbody, ?_⟩
  rw [← openAt_ended hts hus]
  · exact hopen
  · rw [hsource]
    simp

end Offside.Lexer

namespace Offside.Reference

open Grammar
open Lexer
open Offside.Parser (commaBefore hasTrailingComma is_iff)

variable {source : String} {program : Node} {ts us : List Token} {t u : Token} {k : TokenKind}
  {text : String} {ks : List TokenKind} {n : Nat}

/-! ### Flaws of the same words -/

theorem is_alike (h : u.plain = t.plain) (hk : k ≠ .newline) : u.is k text = t.is k text :=
  Bool.eq_iff_iff.mpr ⟨plain_is h.symm hk, plain_is h hk⟩

theorem commaBefore_alike {close : String} (h : ReadAlike ts us) :
    commaBefore close us = commaBefore close ts := by
  induction ts generalizing us with
  | nil =>
    obtain rfl := h.none
    rfl
  | cons t ts ih =>
    obtain ⟨u, us, rfl, hu, hus⟩ := h.head
    cases ts with
    | nil =>
      obtain rfl := hus.none
      rfl
    | cons t' ts =>
      obtain ⟨u', us, rfl, hu', hus'⟩ := hus.head
      rw [commaBefore, commaBefore, ih hus, is_alike hu (by decide), is_alike hu (by decide),
        is_alike hu' (by decide)]

theorem trailingComma_alike (h : ReadAlike ts us) : hasTrailingComma us = hasTrailingComma ts := by
  induction ts generalizing us with
  | nil =>
    obtain rfl := h.none
    rfl
  | cons t ts ih =>
    obtain ⟨u, us, rfl, hu, hus⟩ := h.head
    rw [hasTrailingComma, hasTrailingComma, ih hus, commaBefore_alike hus, commaBefore_alike hus,
      is_alike hu (by decide), is_alike hu (by decide)]

theorem kinds_alike (h : ReadAlike ts us) : kinds us = kinds ts := by
  have hkinds (ts : List Token) : kinds ts = (ts.map Token.plain).map (·.kind) := by
    simp [kinds, Token.plain_kind]
  rw [hkinds, hkinds, h]

theorem Flawed.alike (h : Flawed ts) (hus : ReadAlike ts us) : Flawed us := by
  refine h.imp (fun hcomma => (trailingComma_alike hus).trans hcomma) fun hall n => ?_
  rw [kinds_alike hus]
  exact hall n

/-- Tokens behind which no list goes on. -/
theorem commaBefore_layout {close : String} (h : ∀ u ∈ us, u.kind ≠ .delimiter) :
    commaBefore close (ts ++ us) = commaBefore close ts := by
  have hnone : commaBefore close us = false := by
    induction us with
    | nil => rfl
    | cons u us ih =>
      obtain ⟨hu, hus⟩ := List.forall_mem_cons.mp h
      cases us with
      | nil => rfl
      | cons v us => simp [commaBefore, ih hus, Token.is, hu]
  induction ts with
  | nil => exact hnone
  | cons t ts ih =>
    cases ts with
    | nil =>
      cases us with
      | nil => rfl
      | cons u us =>
        have hu := h u List.mem_cons_self
        change commaBefore close (t :: u :: us) = false
        simp [commaBefore, hnone, Token.is, hu]
    | cons t' ts =>
      rw [List.cons_append, List.cons_append, commaBefore, commaBefore, ← List.cons_append, ih]

theorem trailingComma_layout (h : ∀ u ∈ us, u.kind ≠ .delimiter ∧ u.kind ≠ .keyword) :
    hasTrailingComma (ts ++ us) = hasTrailingComma ts := by
  have hcomma : ∀ u ∈ us, u.kind ≠ .delimiter := fun u hu => (h u hu).1
  induction ts with
  | nil =>
    induction us with
    | nil => rfl
    | cons u us ih =>
      obtain ⟨hu, hus⟩ := List.forall_mem_cons.mp h
      have hnone : hasTrailingComma us = false := ih hus fun u hu => (hus u hu).1
      change hasTrailingComma (u :: us) = false
      simp [hasTrailingComma, hnone, Token.is, hu.2]
  | cons t ts ih =>
    rw [List.cons_append, hasTrailingComma, hasTrailingComma, ih, commaBefore_layout hcomma,
      commaBefore_layout hcomma]

/-! ### What the parser accepts -/

theorem sameWords_plain {ws vs : List Word} (h : SameWords ws vs) :
    vs.map Word.plain = ws.map Word.plain := by
  cases h with
  | same => rfl
  | ended => simp [Word.plain]

theorem plain_map (ts : List Token) : ts.map Token.plain = (ts.map Token.word).map Word.plain := by
  rw [List.map_map]
  rfl

/-- Of tokens of the same words, those before the last are of the same words. -/
theorem ReadAlike.initial (h : ReadAlike (ts ++ [t]) (us ++ [u])) : ReadAlike ts us := by
  rw [ReadAlike, List.map_append, List.map_append] at h
  exact (List.append_inj' h (by simp)).1

/-- The statements of a source that is accepted are built of its tokens with the end of a line
behind it. -/
theorem source_built (h : parseProgram source = .ok program) : ∃ ss ts us stop,
    program = .program Position.start ss ∧ tokenize source = .ok ts ∧
      tokenize (source ++ "\n") = .ok (us ++ [stop]) ∧ stop.kind = .stop ∧
      Builds (.statements (Node.bareList ss)) us ∧ hasTrailingComma us = hasTrailingComma ts := by
  obtain ⟨ss, body, stop, rfl, hts, hstop, hbuilds⟩ := Parser.accepted_builds h
  obtain ⟨us', hus, hwords⟩ := tokenize_ended hts
  obtain ⟨us, stop', rfl, hstop', -⟩ := (tokenize_laidOut hus).ended
  refine ⟨ss, _, us, stop', rfl, hts, hus, hstop', ?_⟩
  have hcomma : hasTrailingComma (body ++ [stop]) = hasTrailingComma body :=
    trailingComma_layout (List.forall_mem_singleton.mpr (by simp [hstop]))
  rw [hcomma]
  rcases hwords with hsame | ⟨s, -, -, -, hended⟩
  · have halike : ReadAlike body us := by
      refine ReadAlike.initial (t := stop) (u := stop') ?_
      rw [ReadAlike, plain_map, plain_map]
      exact sameWords_plain hsame
    exact ⟨builds_alike hbuilds halike, trailingComma_alike halike⟩
  · -- the added end of a line stands before the DEDENTs
    let line : Token := ⟨.newline, "\n", s.pos⟩
    let closing : List Token := List.replicate s.indents.length ⟨.dedent, "", s.pos⟩
    let last : Token := ⟨.stop, "", s.pos⟩
    have hclosing : Closing closing := fun t ht => by simp [List.eq_of_mem_replicate ht]
    have hbody : ReadAlike body (s.tokens.reverse ++ closing) := by
      refine ReadAlike.initial (t := stop) (u := last) ?_
      rw [ReadAlike, plain_map, plain_map, hended.plain, List.append_assoc, ← List.map_append]
      rfl
    have hall : ReadAlike (s.tokens.reverse ++ line :: closing) us := by
      refine ReadAlike.initial (t := last) (u := stop') ?_
      rw [ReadAlike, plain_map, plain_map, hended.ended]
      simp [Scan.closing, line, closing, last, Token.word]
    have hmore := builds_takeLineEnd (show line.kind = .newline from rfl)
      (builds_alike hbuilds hbody)
      rfl hclosing fun _ => ⟨_, rfl⟩
    have hlayout : ∀ t ∈ closing, t.kind ≠ .delimiter ∧ t.kind ≠ .keyword := fun t ht => by
      simp [hclosing t ht]
    refine ⟨builds_alike hmore hall, ?_⟩
    rw [trailingComma_alike hall, ← trailingComma_alike hbody, trailingComma_layout hlayout]
    exact trailingComma_layout (List.forall_mem_cons.mpr ⟨by simp [line], hlayout⟩)

/-- No list of statements begins with a block. -/
theorem builds_first {ss : List Node} (h : Builds (.statements ss) us) :
    (us.map Token.plain).head? ≠ some indentWord := by
  intro hhead
  rw [List.head?_map] at hhead
  obtain ⟨t, ht, hplain⟩ := Option.map_eq_some_iff.mp hhead
  obtain ⟨rest, rfl⟩ := List.head?_eq_some_iff.mp ht
  have hk : t.kind = .indent := by
    rw [← Token.plain_kind, hplain]
    rfl
  generalize hts : t :: rest = ts at h
  cases h with
  | done => cases hts
  | blank hline =>
    obtain ⟨rfl, -⟩ := List.cons.inj hts
    cases hline.symm.trans hk
  | next hs =>
    obtain ⟨u, more, rfl, hu⟩ := builds_heads hs
    obtain ⟨rfl, -⟩ := List.cons.inj hts
    exact (heads_kind ⟨t, more, rfl, hu⟩).2.1 hk

/-- What the lexer reads with a line end behind it, it still has to read at the start. -/
theorem source_awaits {stop : Token} (h : tokenize (source ++ "\n") = .ok (us ++ [stop])) :
    (Scan.start (source.toList ++ ['\n'])).Awaits (us.map Token.plain) := by
  obtain ⟨z, hz, hend, hfinish⟩ := tokenize_ok_iff.mp h
  rw [String.toList_append] at hz
  have hplain := congrArg (List.map Token.plain) hfinish
  rw [z.finish_ending, List.map_append] at hplain
  exact ⟨z, hz, hend, (List.append_inj' hplain (by simp)).1⟩

/-! ### Texts of which nothing is dropped -/

/-- Where nothing is dropped behind a carriage return, each that begins a line ends it. -/
theorem undropped_of_kept (hus : tokenize source = .ok us) (hm : AtMargin source.toList)
    (h : ∀ i, ¬ Dropped source.toList us i) : Undropped source.toList := by
  intro s lead more hs hl hrest hlead
  obtain ⟨z, hz, hend, rfl⟩ := tokenize_ok_iff.mp hus
  obtain ⟨before, hplaced⟩ := Scan.reads_placed hs
  have hstacked := Scan.reads_stacked hs
  obtain ⟨later, hlater, hfrom⟩ := Scan.reads_finish hplaced (Scan.reads_on hs hz hend)
  have hopen : openAt source.toList z.finish before.length = 0 := by
    rw [hlater, openAt_append hplaced.within hfrom, hplaced.tiled.openAt_eq hplaced.within,
      ← hstacked.depth]
    exact hstacked.outside hl
  cases more with
  | nil =>
    have hrest' := atMargin_suffix hm (Scan.reads_suffix hs)
    rw [hrest] at hrest'
    simp [AtMargin] at hrest'
  | cons d more =>
    by_contra hne
    have hd : OneLine [d] := fun hmem => hne (congrArg some (List.mem_singleton.mp hmem).symm)
    refine h (before.length + lead.length + 1) ⟨before, lead, [d], more, ?_, by omega, by simp,
      hplaced.margin hl (by simp [hrest]), hlead, hd, hopen⟩
    rw [hplaced.whole, hrest]
    simp

/-- Without carriage returns nothing is dropped. -/
theorem source_undropped (hr : '\r' ∉ source.toList) : Undropped (source.toList ++ ['\n']) :=
  undropped_of_not_mem (by simp [hr])

/-- Where a source is kept, so it is with the end of a line behind it. -/
theorem source_keeps (hts : tokenize source = .ok ts) (hus : tokenize (source ++ "\n") = .ok us)
    (hkept : ∀ i, ¬ Dropped source.toList ts i) : Undropped (source.toList ++ ['\n']) := by
  have hm : AtMargin (source.toList ++ ['\n']) := by simp [AtMargin]
  have htext : source.toList ++ ['\n'] = (source ++ "\n").toList := by
    rw [String.toList_append]
    rfl
  rw [htext] at hm ⊢
  exact undropped_of_kept hus hm fun i hi => hkept i (dropped_ended hts hus hi)

/-! ### LaidOut texts -/

theorem laidOut_of_splits (h : ∀ front k k' back, ks = front ++ k :: k' :: back →
    (¬ k.OfLine → (front ++ [k]).foldl levelAfter n ≠ 0 → k' ≠ .newline) ∧
      (k = .indent → k' ≠ .dedent)) : LaidOut n ks := by
  induction ks generalizing n with
  | nil => trivial
  | cons k ks ih =>
    refine ⟨fun hk hn hhead => ?_, fun hk hhead => ?_, ih fun front l l' back hsplit => ?_⟩
    · obtain ⟨back, rfl⟩ := List.head?_eq_some_iff.mp hhead
      exact (h [] k .newline back rfl).1 hk hn rfl
    · obtain ⟨back, rfl⟩ := List.head?_eq_some_iff.mp hhead
      exact (h [] k .dedent back rfl).2 hk rfl
    · exact h (k :: front) l l' back (by rw [hsplit, List.cons_append])

/-- The blocks that are open behind tokens of which none closes a block too many. -/
theorem levels_within (h : ∀ front, front <+: ts → countOf .dedent front ≤ countOf .indent front) :
    (kinds ts).foldl levelAfter 0 + countOf .dedent ts = countOf .indent ts := by
  induction ts using List.reverseRecOn with
  | nil => rfl
  | append_singleton ts t ih =>
    have ih := ih fun front hfront => h front (hfront.trans (List.prefix_append ts [t]))
    have hall := h _ List.prefix_rfl
    have hnil (kind : TokenKind) : countOf kind [] = 0 := rfl
    rw [countOf_append, countOf_append, countOf_cons, countOf_cons, hnil, hnil] at hall ⊢
    rw [kinds, List.map_append, List.foldl_append, List.map_singleton, List.foldl_cons,
      List.foldl_nil]
    change levelAfter ((kinds ts).foldl levelAfter 0) t.kind + _ = _
    cases hk : t.kind <;> simp only [hk, levelAfter, reduceCtorEq, if_true, if_false] at hall ⊢ <;>
      omega

/-- Where no block has a line of white space that begins with a form feed, the tokens are laid out.
-/
theorem source_laidOut (hts : tokenize source = .ok ts)
    (h : ∀ lead p, lead ≠ [] → ¬ FeedLine source.toList ts lead p) : LaidOut 0 (kinds ts) := by
  refine laidOut_of_splits fun front k k' back hsplit => ?_
  obtain ⟨fs, tail, rfl, rfl, htail⟩ := List.map_eq_append_iff.mp hsplit
  obtain ⟨t, tail', rfl, rfl, htail'⟩ := List.map_eq_cons_iff.mp htail
  obtain ⟨u, bs, rfl, rfl, rfl⟩ := List.map_eq_cons_iff.mp htail'
  refine ⟨fun hk hn hu => ?_, fun hk => indent_not_closed hts rfl hk⟩
  obtain ⟨lead, hline, hlead⟩ := newline_feedLine hts rfl hk hu
  refine h lead _ (hlead ?_) hline
  have hlevels : (kinds (fs ++ [t])).foldl levelAfter 0 + countOf .dedent (fs ++ [t]) =
      countOf .indent (fs ++ [t]) := levels_within fun front hfront =>
    (tokenize_laidOut hts).within front (hfront.trans ⟨u :: bs, by simp⟩)
  rw [kinds, List.map_append, List.map_singleton] at hlevels
  omega

end Offside.Reference
