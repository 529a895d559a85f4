import Offside.Proofs.Lexer.Blank
import Offside.Proofs.Lexer.Layout

/-!
Other widths of indentation. Where every line begins with blanks of another width, and wider lines
stay wider, a text is read as before: the open levels of the two readings correspond one by one, so
that the same levels are opened and closed, and nothing else depends on widths.
-/

namespace Offside.Lexer

variable {f : Nat → Nat} {line lead text tail cs more : List Char} {c : Char}

/-! ### Texts -/

def reindentLine (f : Nat → Nat) (line : List Char) : List Char :=
  List.replicate (f (width (line.takeWhile isIndentation))) ' ' ++ line.dropWhile isIndentation

/-- The text with the blanks at the start of each line, of width `w`, replaced by `f w` spaces. -/
def reindent (f : Nat → Nat) (text : List Char) : List Char :=
  ['\n'].intercalate ((text.splitOn '\n').map (reindentLine f))

/-- What follows a line, with its lines reindented. -/
def reindentAfter (f : Nat → Nat) : List Char → List Char
  | [] => []
  | c :: rest => c :: reindent f rest

/-- The rest of a line, and the lines after it reindented. -/
def reindentRest (f : Nat → Nat) (text : List Char) : List Char :=
  text.takeWhile (!isLineEnd ·) ++ reindentAfter f (text.dropWhile (!isLineEnd ·))

theorem reindent_line (hline : OneLine line) (htail : ∀ c ∈ tail.head?, c = '\n') :
    reindent f (line ++ tail) = reindentLine f line ++ reindentAfter f tail := by
  unfold reindent
  cases tail with
  | nil =>
    rw [List.append_nil, List.splitOn_eq_singleton hline, reindentAfter, List.append_nil]
    exact List.intercalate_singleton
  | cons c rest =>
    obtain rfl : c = '\n' := htail c rfl
    have hne : (rest.splitOn '\n').map (reindentLine f) ≠ [] :=
      fun h => List.splitOn_ne_nil '\n' rest (List.map_eq_nil_iff.mp h)
    rw [List.splitOn_append_cons_self, List.splitOn_eq_singleton hline, List.singleton_append,
      List.map_cons, List.intercalate_cons_of_ne_nil hne, List.append_assoc]
    rfl

theorem reindentRest_line (hline : OneLine line) (htail : ∀ c ∈ tail.head?, c = '\n') :
    reindentRest f (line ++ tail) = line ++ reindentAfter f tail := by
  obtain ⟨htake, hdrop⟩ := takeWhile_all (oneLine_all hline) (lineEnd_head htail)
  rw [reindentRest, htake, hdrop]

theorem reindentAfter_head (htail : ∀ c ∈ tail.head?, c = '\n') :
    ∀ c ∈ (reindentAfter f tail).head?, c = '\n' := by
  cases tail with
  | nil => nofun
  | cons c rest => exact htail

theorem reindent_lead (hlead : IsIndentation lead) (htext : ∀ c ∈ text.head?, isIndentation c = false) :
    reindent f (lead ++ text) = List.replicate (f (width lead)) ' ' ++ reindentRest f text := by
  obtain ⟨line, tail, rfl, hline, htail⟩ := exists_line text
  have hhead : ∀ c ∈ line.head?, isIndentation c = false := by
    intro c hc
    refine htext c ?_
    cases line with
    | nil => cases hc
    | cons d line => exact hc
  obtain ⟨htake, hdrop⟩ := takeWhile_all hlead hhead
  rw [← List.append_assoc, reindent_line (hlead.oneLine.append hline) htail,
    reindentRest_line hline htail, reindentLine, htake, hdrop, List.append_assoc]

theorem reindent_nil (h0 : f 0 = 0) : reindent f [] = [] := by
  have hlead : reindent f ([] ++ []) = _ := reindent_lead nofun nofun
  rw [List.append_nil, show width [] = 0 from rfl, h0] at hlead
  exact hlead

theorem reindentRest_cons (hc : c ≠ '\n') (rest : List Char) :
    reindentRest f (c :: rest) = c :: reindentRest f rest := by
  obtain ⟨line, tail, rfl, hline, htail⟩ := exists_line rest
  rw [reindentRest_line hline htail, ← List.cons_append,
    reindentRest_line (.cons hc hline) htail, List.cons_append]

theorem spaces_indentation (n : Nat) : IsIndentation (List.replicate n ' ') := by
  intro c hc
  rw [List.eq_of_mem_replicate hc]
  rfl

/-! ### Two readings -/

namespace Scan

variable {s t s' t' x y : Scan} {e e' : LexError}

theorem reads_measure (h : Reads s s') : s'.view.measure ≤ s.view.measure := by
  induction h with
  | refl => exact Nat.le_refl _
  | tail _ hnext ih => exact Nat.le_trans (Nat.le_of_lt hnext.turn.measure_lt) ih

/-- Scans at corresponding places of the two texts. The same words have been read, and the same
levels are open, up to their widths. -/
structure Alike (f : Nat → Nat) (s t : Scan) : Prop where
  rest : t.rest = if s.lineStart then reindent f s.rest else reindentRest f s.rest
  line : t.pos.line = s.pos.line
  indents : t.indents = s.indents.map f
  depth : t.depth = s.depth
  lineStart : t.lineStart = s.lineStart
  words : t.tokens.map Token.word = s.tokens.map Token.word

/-- Outcomes of a step in the two texts. -/
inductive Together (f : Nat → Nat) : Except LexError Scan → Except LexError Scan → Prop where
  | ok {s t : Scan} : Alike f s t → Together f (.ok s) (.ok t)
  | error {e e' : LexError} : e'.fault.kind = e.fault.kind → e'.pos.line = e.pos.line →
      Together f (.error e) (.error e')

theorem start_alike (f : Nat → Nat) (text : List Char) :
    Alike f (start text) (start (reindent f text)) :=
  ⟨rfl, rfl, rfl, rfl, rfl, rfl⟩

namespace Alike

theorem after_skip (h : Alike f s t) {taken taken' rest rest' : List Char}
    (hlines : taken'.count '\n' = taken.count '\n')
    (hrest : rest' = if s.lineStart then reindent f rest else reindentRest f rest) :
    Alike f (s.passOver taken rest) (t.passOver taken' rest') := by
  refine ⟨hrest, ?_, h.indents, h.depth, h.lineStart, h.words⟩
  change (t.pos.after taken').line = (s.pos.after taken).line
  rw [Position.after_line, Position.after_line, hlines, h.line]

theorem mark (h : Alike f s t) (kind : TokenKind) : Alike f (s.mark kind) (t.mark kind) :=
  ⟨h.rest, h.line, h.indents, h.depth, h.lineStart, congrArg (Word.mk kind "" :: ·) h.words⟩

/-- The same levels are closed. -/
theorem closeTo (hf : StrictMono f) (h : Alike f s t) (n : Nat) (is : List Nat) :
    Alike f (Scan.closeTo n is s) (Scan.closeTo (f n) (is.map f) t) := by
  induction is generalizing s t with
  | nil => exact ⟨h.rest, h.line, rfl, h.depth, h.lineStart, h.words⟩
  | cons w is ih =>
    rw [List.map_cons, Scan.closeTo, Scan.closeTo]
    by_cases hw : n < w
    · rw [if_pos hw, if_pos (hf hw)]
      exact ih (h.mark .dedent)
    · rw [if_neg hw, if_neg fun hlt => hw (hf.lt_iff_lt.mp hlt)]
      exact ⟨h.rest, h.line, rfl, h.depth, h.lineStart, h.words⟩

theorem top (h0 : f 0 = 0) (h : Alike f s t) : t.indents.headD 0 = f (s.indents.headD 0) := by
  rw [h.indents]
  cases s.indents with
  | nil => exact h0.symm
  | cons w is => rfl

/-- The same levels are opened and closed, and the same widths refused. -/
theorem indentTo (hf : StrictMono f) (h0 : f 0 = 0) (h : Alike f s t) (n : Nat) :
    Together f (s.indentTo n) (t.indentTo (f n)) := by
  have hclosed := h.closeTo hf n s.indents
  unfold Scan.indentTo
  dsimp only
  rw [h.top h0]
  by_cases hlt : s.indents.headD 0 < n
  · rw [if_pos hlt, if_pos (hf hlt)]
    refine .ok (mark ?_ .indent)
    exact ⟨h.rest, h.line, by simp [h.indents], h.depth, h.lineStart, h.words⟩
  · rw [if_neg hlt, if_neg fun hlt' => hlt (hf.lt_iff_lt.mp hlt'), h.indents, hclosed.top h0]
    by_cases heq : (Scan.closeTo n s.indents s).indents.headD 0 = n
    · rw [if_pos heq, if_pos (congrArg f heq)]
      exact .ok hclosed
    · rw [if_neg heq, if_neg fun heq' => heq (hf.injective heq')]
      exact .error rfl h.line

end Alike

/-! ### At the start of a line -/

/-- A line without content is passed over in both texts. -/
theorem alike_void (hf : StrictMono f) (h0 : f 0 = 0) (h : Alike f s t) {body : List Char}
    (hl : s.lineStart = true) (hs : s.rest = lead ++ (body ++ tail)) (hne : s.rest ≠ [])
    (hlead : IsIndentation lead) (hbody : OneLine body)
    (hhead : ∀ c ∈ body.head?, c = '\r' ∨ c = '#') (htail : ∀ c ∈ tail.head?, c = '\n') :
    ∃ s' t', Next s s' ∧ Reads t t' ∧ Alike f s' t' := by
  have hstop : ∀ c ∈ (body ++ tail).head?, isIndentation c = false := by
    intro c hc
    cases body with
    | nil => rw [htail c hc]; rfl
    | cons d body => rcases hhead c hc with rfl | rfl <;> rfl
  have hrest : t.rest = List.replicate (f (width lead)) ' ' ++ (body ++ reindentAfter f tail) := by
    rw [h.rest, if_pos hl, hs, reindent_lead hlead hstop, reindentRest_line hbody htail]
  have hafter := reindentAfter_head (f := f) htail
  have hstep := step_void hl hs hlead hbody hhead htail
  have hstep' := step_void (h.lineStart.trans hl) hrest (spaces_indentation _) hbody hhead hafter
  have hne' : t.rest ≠ [] := by
    intro hnil
    rw [hrest] at hnil
    obtain ⟨hspaces, hbt⟩ := List.append_eq_nil_iff.mp hnil
    obtain ⟨rfl, htnil⟩ := List.append_eq_nil_iff.mp hbt
    have hlead' : lead = [] := by
      by_contra hlead'
      have hlt := hf (width_pos hlead')
      rw [h0, List.replicate_eq_nil_iff ' ' |>.mp hspaces] at hlt
      exact Nat.lt_irrefl 0 hlt
    have htail' : tail = [] := by
      cases tail with
      | nil => rfl
      | cons c tail => cases htnil
    rw [hs, hlead', htail'] at hne
    exact hne rfl
  refine ⟨_, _, ⟨hne, hstep⟩, .single ⟨hne', hstep'⟩, h.after_skip ?_ ?_⟩
  · have hspaces : (List.replicate (f (width lead)) ' ').count '\n' = lead.count '\n' := by
      rw [List.count_eq_zero.mpr hlead.oneLine, List.count_eq_zero.mpr (spaces_indentation _).oneLine]
    rw [List.count_append, List.count_append, List.count_append, List.count_append, hspaces]
    cases tail <;> rfl
  · rw [if_pos hl]
    cases tail with
    | nil => exact (reindent_nil h0).symm
    | cons c tail => rfl

/-- A line with content has the same effect in both texts. -/
theorem alike_content (hf : StrictMono f) (h0 : f 0 = 0) (h : Alike f s t)
    (hline : s.AtLine lead c more) : Together f s.step t.step ∧ t.rest ≠ [] := by
  have hstop : ∀ d ∈ (c :: more).head?, isIndentation d = false := by
    simp [hline.content.indentation]
  have hrest : t.rest =
      List.replicate (f (width lead)) ' ' ++ c :: reindentRest f more := by
    rw [h.rest, if_pos hline.lineStart, hline.text, reindent_lead hline.lead hstop,
      reindentRest_cons hline.content.newline]
  have hline' : t.AtLine (List.replicate (f (width lead)) ' ') c (reindentRest f more) :=
    ⟨h.lineStart.trans hline.lineStart, hrest, spaces_indentation _, hline.content⟩
  rw [hline.step_eq, hline'.step_eq, width_replicate]
  have hsettled : Alike f (s.passOver lead (c :: more)).settled
      (t.passOver (List.replicate (f (width lead)) ' ') (c :: reindentRest f more)).settled := by
    refine ⟨(reindentRest_cons hline.content.newline more).symm, ?_, h.indents, h.depth, rfl, h.words⟩
    change (t.pos.after _).line = (s.pos.after lead).line
    rw [Position.after_line, Position.after_line, List.count_eq_zero.mpr hline.lead.oneLine,
      List.count_eq_zero.mpr (spaces_indentation _).oneLine, h.line]
  exact ⟨hsettled.indentTo hf h0 (width lead), by simp [hrest]⟩

/-! ### Inside a line -/

/-- A fragment of a line is the same in both texts. -/
theorem alike_fragment (h : Alike f s t) (hl : s.lineStart = false) (hs : s.rest = c :: more)
    (hc : c ≠ '\n') : Together f s.step t.step ∧ t.rest ≠ [] := by
  have hrest : t.rest = c :: reindentRest f more := by
    rw [h.rest, if_neg (by simp [hl]), hs, reindentRest_cons hc]
  refine ⟨?_, by simp [hrest]⟩
  rw [step_eq hl hs, step_eq (h.lineStart.trans hl) hrest, stepInLine_fragment hs hc,
    stepInLine_fragment hrest hc, h.depth]
  obtain ⟨line, tail, rfl, hline, htail⟩ := exists_line more
  rw [reindentRest_line hline htail]
  have hplain : fragment s.depth c (line ++ tail) = _ :=
    fragment_within (E := ⟨0, [], [], tail⟩) s.depth hc (.inl htail)
  have hmoved : fragment s.depth c (line ++ reindentAfter f tail) = _ :=
    fragment_within (E := ⟨0, [], [], reindentAfter f tail⟩) s.depth hc (.inl (reindentAfter_head htail))
  rw [hplain, hmoved]
  cases hx : fragment s.depth c line with
  | error fault => exact .error rfl h.line
  | ok x =>
    obtain ⟨hsplit, hone⟩ := fragment_split hc hx
    have hxrest : OneLine x.rest := by
      have hwhole : OneLine (c :: line) := .cons hc hline
      rw [hsplit] at hwhole
      exact fun hmem => hwhole (List.mem_append_right _ hmem)
    refine .ok ⟨?_, ?_, h.indents, rfl, h.lineStart, ?_⟩
    · change x.rest ++ reindentAfter f tail =
        if s.lineStart = true then _ else reindentRest f (x.rest ++ tail)
      rw [if_neg (by simp [hl]), reindentRest_line hxrest htail]
    · change (t.pos.after x.taken).line = (s.pos.after x.taken).line
      rw [Position.after_line, Position.after_line, h.line]
    · have hwords := h.words
      cases hk : x.kind <;> simp [pass, Fragment.append, hk, Token.word] at hwords ⊢ <;> exact hwords

/-- The end of a line is passed over in both texts; inside brackets, with the blanks after it. -/
theorem alike_newline (h : Alike f s t) (hl : s.lineStart = false) (hs : s.rest = '\n' :: more) :
    ∃ s₁ s' t', Next s s₁ ∧ Reads s₁ s' ∧ Reads t t' ∧ Alike f s' t' := by
  have hrest : t.rest = '\n' :: reindent f more := by
    rw [h.rest, if_neg (by simp [hl]), hs]
    rfl
  rcases Nat.eq_zero_or_pos s.depth with hd | hd
  · have hstep : s.step = .ok { s.take .newline ['\n'] more with lineStart := true } := by
      rw [step_eq hl hs, stepInLine, if_pos rfl, if_pos hd]
    have hstep' : t.step =
        .ok { t.take .newline ['\n'] (reindent f more) with lineStart := true } := by
      rw [step_eq (h.lineStart.trans hl) hrest, stepInLine, if_pos rfl, if_pos (h.depth.trans hd)]
    refine ⟨_, _, _, ⟨by simp [hs], hstep⟩, .refl, .single ⟨by simp [hrest], hstep'⟩, ?_⟩
    refine ⟨rfl, ?_, h.indents, h.depth, rfl, congrArg (Word.mk .newline "\n" :: ·) h.words⟩
    change (t.pos.after ['\n']).line = (s.pos.after ['\n']).line
    rw [Position.after_line, Position.after_line, h.line]
  · obtain ⟨lead, text, rfl, hlead, htext⟩ := exists_lead more
    rw [reindent_lead hlead htext] at hrest
    have hblanks := reads_blanks (s := s.passOver ['\n'] (lead ++ text)) hl rfl
      (indentation_space hlead)
    have hnext' := next_newline (h.lineStart.trans hl) (h.depth ▸ hd) hrest
    have hspaces := indentation_space (spaces_indentation (f (width lead)))
    have hblanks' := reads_blanks
      (s := t.passOver ['\n'] (List.replicate (f (width lead)) ' ' ++ reindentRest f text))
      (h.lineStart.trans hl) rfl hspaces
    refine ⟨_, _, _, next_newline hl hd hs, hblanks, .head hnext' hblanks', ?_⟩
    rw [passOver_passOver, passOver_passOver]
    refine h.after_skip ?_ (by rw [if_neg (by simp [hl])])
    rw [List.count_append, List.count_append, List.count_eq_zero.mpr hlead.oneLine,
      List.count_eq_zero.mpr (spaces_indentation _).oneLine]

/-! ### To the end -/

/-- Both texts go on alike, or both readings are given up. -/
theorem alike_goes (hf : StrictMono f) (h0 : f 0 = 0) (h : Alike f s t) (hne : s.rest ≠ []) :
    (∃ s₁ s' t', Next s s₁ ∧ Reads s₁ s' ∧ Reads t t' ∧ Alike f s' t') ∨
      ∃ e e', s.step = .error e ∧ t.rest ≠ [] ∧ t.step = .error e' ∧
        e'.fault.kind = e.fault.kind ∧ e'.pos.line = e.pos.line := by
  have hboth (hb : Together f s.step t.step ∧ t.rest ≠ []) :
      (∃ s₁ s' t', Next s s₁ ∧ Reads s₁ s' ∧ Reads t t' ∧ Alike f s' t') ∨
        ∃ e e', s.step = .error e ∧ t.rest ≠ [] ∧ t.step = .error e' ∧
          e'.fault.kind = e.fault.kind ∧ e'.pos.line = e.pos.line := by
    obtain ⟨htogether, hne'⟩ := hb
    generalize hr : s.step = r at htogether
    generalize hr' : t.step = r' at htogether
    cases htogether with
    | ok hnext => exact .inl ⟨_, _, _, ⟨hne, hr⟩, .refl, .single ⟨hne', hr'⟩, hnext⟩
    | error hkind hline => exact .inr ⟨_, _, rfl, hne', rfl, hkind, hline⟩
  by_cases hl : s.lineStart = true
  · obtain ⟨lead, text, hs, hlead, htext⟩ := exists_lead s.rest
    have hvoid {body tail : List Char} (htext : text = body ++ tail) (hbody : OneLine body)
        (hhead : ∀ c ∈ body.head?, c = '\r' ∨ c = '#') (htail : ∀ c ∈ tail.head?, c = '\n') :
        ∃ s₁ s' t', Next s s₁ ∧ Reads s₁ s' ∧ Reads t t' ∧ Alike f s' t' := by
      obtain ⟨s', t', hnext, hreads, halike⟩ :=
        alike_void hf h0 h hl (htext ▸ hs) hne hlead hbody hhead htail
      exact ⟨s', s', t', hnext, .refl, hreads, halike⟩
    obtain ⟨line, tail, hsplit, hline, htail⟩ := exists_line text
    cases line with
    | nil => exact .inl (hvoid hsplit List.not_mem_nil nofun htail)
    | cons c line =>
      have hcn : c ≠ '\n' := fun heq => hline (heq ▸ List.mem_cons_self)
      by_cases hc : c = '\r' ∨ c = '#'
      · refine .inl (hvoid hsplit hline (fun d hd => ?_) htail)
        obtain rfl := Option.some.inj hd
        exact hc
      · obtain ⟨hcarriage, hcomment⟩ := not_or.mp hc
        have hindentation : isIndentation c = false := htext c (by rw [hsplit]; rfl)
        have hat : s.AtLine lead c (line ++ tail) :=
          ⟨hl, by rw [hs, hsplit, List.cons_append], hlead,
            ⟨hindentation, hcarriage, hcn, hcomment⟩⟩
        exact hboth (alike_content hf h0 h hat)
  · have hl : s.lineStart = false := by simpa using hl
    obtain ⟨c, more, hs⟩ := List.exists_cons_of_ne_nil hne
    by_cases hc : c = '\n'
    · subst hc
      exact .inl (alike_newline h hl hs)
    · exact hboth (alike_fragment h hl hs hc)

/-- Both readings reach the end of their text, or both are given up. -/
theorem alike_ends (hf : StrictMono f) (h0 : f 0 = 0) (h : Alike f s t) :
    (∃ s' t', Reads s s' ∧ s'.rest = [] ∧ Reads t t' ∧ t'.rest = [] ∧ Alike f s' t') ∨
      ∃ s' t' e e', Reads s s' ∧ s'.rest ≠ [] ∧ s'.step = .error e ∧ Reads t t' ∧ t'.rest ≠ [] ∧
        t'.step = .error e' ∧ e'.fault.kind = e.fault.kind ∧ e'.pos.line = e.pos.line := by
  induction hn : s.view.measure using Nat.strong_induction_on generalizing s t with
  | _ n ih =>
    by_cases hend : s.rest = []
    · have hend' : t.rest = [] := by
        rw [h.rest, hend, reindent_nil h0]
        split <;> rfl
      exact .inl ⟨s, t, .refl, hend, .refl, hend', h⟩
    · rcases alike_goes hf h0 h hend with
        ⟨s₁, s', t', hnext, hreads, hreads', halike⟩ | ⟨e, e', he, hne', he', hkind, hline⟩
      · have hlt : s'.view.measure < n :=
          hn ▸ Nat.lt_of_le_of_lt (reads_measure hreads) hnext.turn.measure_lt
        rcases ih _ hlt halike rfl with ⟨a, b, ha, haend, hb, hbend, hab⟩ |
          ⟨a, b, e, e', ha, hane, hae, hb, hbne, hbe, hkind, hline⟩
        · exact .inl ⟨a, b, .head hnext (hreads.trans ha), haend, hreads'.trans hb, hbend, hab⟩
        · exact .inr ⟨a, b, e, e', .head hnext (hreads.trans ha), hane, hae, hreads'.trans hb, hbne,
            hbe, hkind, hline⟩
      · exact .inr ⟨s, t, e, e', .refl, hend, he, .refl, hne', he', hkind, hline⟩

theorem finish_alike (h : Alike f s t) : t.finish.map Token.word = s.finish.map Token.word := by
  have hpending : t.pending = s.pending := by
    have hhead (ts : List Token) : ts.head?.any (·.kind != .newline) =
        (ts.map Token.word).head?.any (·.kind != .newline) := by
      cases ts <;> rfl
    unfold pending
    rw [h.depth, hhead, hhead, h.words]
  have hclosing : t.closing.map Token.word = s.closing.map Token.word := by
    simp [closing, h.indents, Token.word]
  rw [finish_pending, finish_pending, hpending, List.map_append, List.map_append, List.map_append,
    List.map_append, hclosing, List.map_reverse, List.map_reverse, h.words]
  cases s.pending <;> rfl

end Scan

open Scan

def reindented (f : Nat → Nat) (source : String) : String :=
  String.ofList (reindent f source.toList)

/-- The same words, or errors of the same kind on the same line. -/
inductive SameReading : Except LexError (List Token) → Except LexError (List Token) → Prop where
  | ok {ts us : List Token} : us.map Token.word = ts.map Token.word → SameReading (.ok ts) (.ok us)
  | error {e e' : LexError} : e'.fault.kind = e.fault.kind → e'.pos.line = e.pos.line →
      SameReading (.error e) (.error e')

/-- Where wider lines stay wider, other widths of indentation do not change how a text is read. -/
theorem relative_indentation_decides {f : Nat → Nat} (hf : StrictMono f) (h0 : f 0 = 0)
    (source : String) : SameReading (tokenize source) (tokenize (reindented f source)) := by
  have hstart : (reindented f source).toList = reindent f source.toList := String.toList_ofList
  rcases alike_ends hf h0 (start_alike f source.toList) with
    ⟨s, t, hs, hsend, ht, htend, halike⟩ | ⟨s, t, e, e', hs, hsne, he, ht, htne, he', hkind, hline⟩
  · rw [tokenize_ok_iff.mpr ⟨s, hs, hsend, rfl⟩,
      tokenize_ok_iff.mpr ⟨t, hstart ▸ ht, htend, rfl⟩]
    exact .ok (finish_alike halike)
  · rw [tokenize_error_iff.mpr ⟨s, hs, hsne, he⟩, tokenize_error_iff.mpr ⟨t, hstart ▸ ht, htne, he'⟩]
    exact .error hkind hline

/-- Twice the width everywhere: a tab becomes eight spaces. -/
theorem doubled_indentation_read :
    StrictMono (fun n => 2 * n) ∧ 2 * 0 = 0 ∧
      reindented (fun n => 2 * n) "if a:\n\tf(\n b)\n" = "if a:\n        f(\n  b)\n" ∧
      SameReading (tokenize "if a:\n\tf(\n b)\n") (tokenize "if a:\n        f(\n  b)\n") := by
  have hmono : StrictMono fun n : Nat => 2 * n := fun m n h => by
    dsimp only
    omega
  have htext : reindented (fun n => 2 * n) "if a:\n\tf(\n b)\n" = "if a:\n        f(\n  b)\n" := by
    decide +kernel
  refine ⟨hmono, rfl, htext, ?_⟩
  have hread := relative_indentation_decides hmono rfl "if a:\n\tf(\n b)\n"
  rwa [htext] at hread

end Offside.Lexer
