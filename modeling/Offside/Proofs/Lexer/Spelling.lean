import Offside.Proofs.Lexer.Move

/-!
What the tokens of a source are. Each stands at a place of the text, and each token of a line is
spelled as the lexer takes it; in particular a number is one or two runs of digits, of any script. A
reading that is given up is given up at a place of the text, too.
-/

namespace Offside

/-- The line and column that some point of a source has. -/
def Position.IsIn (p : Position) (source : String) : Prop :=
  ∃ taken rest, source.toList = taken ++ rest ∧ p = Position.start.after taken

namespace Lexer

structure Legible (source : String) (t : Token) : Prop where
  pos : t.pos.IsIn source
  spelled : t.kind.OfLine → Spells t.kind t.lexeme.toList

/-- A scan that stands where its text is left, with tokens of what is taken. -/
structure Scan.Sound (source : String) (s : Scan) : Prop where
  here : ∃ taken, source.toList = taken ++ s.rest ∧ s.pos = Position.start.after taken
  tokens : ∀ t ∈ s.tokens, Legible source t

namespace Scan

variable {source : String} {s s' : Scan}

theorem Sound.pos (h : s.Sound source) : s.pos.IsIn source := by
  obtain ⟨taken, ht, hp⟩ := h.here
  exact ⟨taken, s.rest, ht, hp⟩

theorem Sound.later (h : s.Sound source) {taken rest : List Char} (hs : s.rest = taken ++ rest) :
    ∃ before, source.toList = before ++ rest ∧
      s.pos.after taken = Position.start.after before := by
  obtain ⟨before, hb, hp⟩ := h.here
  refine ⟨before ++ taken, by rw [hb, hs, List.append_assoc], ?_⟩
  rw [hp, Position.after, Position.after, Position.after, List.foldl_append]

theorem legible_mark {kind : TokenKind} {lexeme : String} {p : Position} (hp : p.IsIn source)
    (hk : ¬ kind.OfLine) : Legible source ⟨kind, lexeme, p⟩ :=
  ⟨hp, fun h => absurd h hk⟩

theorem move_sound (h : s.Sound source) (hm : Move s s') : s'.Sound source := by
  have hmarks {p : Position} {kind : TokenKind} (hp : p.IsIn source) (hk : ¬ kind.OfLine)
      (count : Nat) : ∀ t ∈ List.replicate count ⟨kind, "", p⟩ ++ s.tokens, Legible source t := by
    intro t ht
    rcases List.mem_append.mp ht with ht | ht
    · rw [List.eq_of_mem_replicate ht]
      exact legible_mark hp hk
    · exact h.tokens t ht
  have hthere {taken rest : List Char} (hs : s.rest = taken ++ rest) :
      (s.pos.after taken).IsIn source := by
    obtain ⟨before, hb, hp⟩ := h.later hs
    exact ⟨before, rest, hb, hp⟩
  cases hm with
  | pass hs => exact ⟨h.later hs, h.tokens⟩
  | deeper _ hs => exact ⟨h.later hs, hmarks (hthere hs) id 1⟩
  | back _ hs _ => exact ⟨h.later hs, hmarks (hthere hs) id _⟩
  | newline _ hs =>
    refine ⟨h.later hs, fun t ht => ?_⟩
    rcases List.mem_cons.mp ht with rfl | ht
    · exact legible_mark h.pos id
    · exact h.tokens t ht
  | @word kind taken rest _ _ hs hspell =>
    refine ⟨h.later hs, fun t ht => ?_⟩
    rcases List.mem_cons.mp ht with rfl | ht
    · exact ⟨h.pos, fun _ => by rwa [String.toList_ofList]⟩
    · exact h.tokens t ht

theorem start_sound (source : String) : (start source.toList).Sound source :=
  ⟨⟨[], rfl, rfl⟩, List.forall_mem_nil _⟩

theorem marks_tokens (is : List Nat) (s : Scan) :
    is.foldl (fun s _ => s.mark .dedent) s =
      { s with tokens := List.replicate is.length ⟨.dedent, "", s.pos⟩ ++ s.tokens } := by
  induction is generalizing s with
  | nil => rfl
  | cons i is ih =>
    rw [List.foldl_cons, ih, List.length_cons, List.replicate_succ']
    simp [mark]

/-- At the end a line is perhaps ended, every level is closed, and the end is marked. -/
theorem finish_eq (s : Scan) : ∃ ends, (ends = [] ∨ ends = [⟨.newline, "", s.pos⟩]) ∧
    s.finish = s.tokens.reverse ++ ends ++
      List.replicate s.indents.length ⟨.dedent, "", s.pos⟩ ++ [⟨.stop, "", s.pos⟩] := by
  have hmarks (s : Scan) :
      ((s.indents.foldl (fun s _ => s.mark .dedent) s).mark .stop).tokens.reverse =
        s.tokens.reverse ++ List.replicate s.indents.length ⟨.dedent, "", s.pos⟩ ++
        [⟨.stop, "", s.pos⟩] := by
    rw [marks_tokens]
    simp [mark]
  unfold finish
  dsimp only
  split_ifs
  · refine ⟨[⟨.newline, "", s.pos⟩], .inr rfl, ?_⟩
    rw [hmarks]
    simp [mark]
  · refine ⟨[], .inl rfl, ?_⟩
    rw [hmarks, List.append_nil]

theorem finish_legible (h : s.Sound source) : ∀ t ∈ s.finish, Legible source t := by
  obtain ⟨ends, hends, hfinish⟩ := finish_eq s
  have hmark {kind : TokenKind} (hk : ¬ kind.OfLine) : Legible source ⟨kind, "", s.pos⟩ :=
    legible_mark h.pos hk
  rw [hfinish]
  simp only [List.forall_mem_append, List.forall_mem_singleton, List.mem_reverse,
    List.mem_replicate]
  refine ⟨⟨⟨h.tokens, ?_⟩, ?_⟩, hmark id⟩
  · rcases hends with rfl | rfl
    · exact List.forall_mem_nil _
    · exact List.forall_mem_singleton.mpr (hmark id)
  · rintro t ⟨-, rfl⟩
    exact hmark id

end Scan

theorem tokenize_legible {source : String} {ts : List Token} (h : tokenize source = .ok ts) :
    ∀ t ∈ ts, Legible source t := by
  unfold tokenize at h
  have hrun := Scan.run_keeps (fun _ _ => Scan.move_sound) (2 * source.toList.length + 1)
    (Scan.start_sound source)
  dsimp only at h
  split at h
  · next s hs =>
    cases h
    exact Scan.finish_legible (hrun.1 s hs)
  · cases h

theorem tokenize_ne_nil {source : String} {ts : List Token} (h : tokenize source = .ok ts) :
    ts ≠ [] := by
  unfold tokenize at h
  dsimp only at h
  split at h
  · next s _ =>
    cases h
    obtain ⟨ends, -, hfinish⟩ := Scan.finish_eq s
    rw [hfinish]
    exact List.append_ne_nil_of_right_ne_nil _ (List.cons_ne_nil _ _)
  · cases h

theorem tokenize_error {source : String} {e : LexError} (h : tokenize source = .error e) :
    e.pos.IsIn source := by
  unfold tokenize at h
  have hrun := Scan.run_keeps (fun _ _ => Scan.move_sound) (2 * source.toList.length + 1)
    (Scan.start_sound source)
  dsimp only at h
  split at h
  · cases h
  · next e' he =>
    cases h
    obtain ⟨s, hs, hstep⟩ := hrun.2 _ he
    have hgoes := Scan.step_goes s
    rw [hstep] at hgoes
    obtain ⟨taken, rest, hrest, hp⟩ := hgoes
    obtain ⟨before, hb, hpos⟩ := hs.later hrest
    exact ⟨before, rest, hb, hp.trans hpos⟩

end Lexer

end Offside

/-!
Blocks in the tokens of a source. Each INDENT follows the end of a line, or starts the list, and has
its DEDENT; the end comes last, where no block is open.
-/

namespace Offside

/-- What is left inside `blocks` blocks, at the start of a line or further on. -/
inductive Nested : Bool → Nat → List Token → Prop where
  | nil {atStart : Bool} : Nested atStart 0 []
  | line {atStart : Bool} {blocks : Nat} {t : Token} {ts : List Token} : t.kind.OfLine →
      Nested false blocks ts → Nested atStart blocks (t :: ts)
  | newline {atStart : Bool} {blocks : Nat} {t : Token} {ts : List Token} : t.kind = .newline →
      Nested true blocks ts → Nested atStart blocks (t :: ts)
  | indent {blocks : Nat} {t : Token} {ts : List Token} : t.kind = .indent →
      Nested false (blocks + 1) ts → Nested true blocks (t :: ts)
  | dedent {atStart : Bool} {blocks : Nat} {t : Token} {ts : List Token} : t.kind = .dedent →
      Nested false blocks ts → Nested atStart (blocks + 1) (t :: ts)

def countOf (kind : TokenKind) (ts : List Token) : Nat := ts.countP (·.kind == kind)

variable {atStart : Bool} {blocks : Nat} {ts : List Token}

theorem Nested.start (h : Nested false blocks ts) : Nested atStart blocks ts := by
  cases h with
  | nil => exact .nil
  | line hk h => exact .line hk h
  | newline hk h => exact .newline hk h
  | dedent hk h => exact .dedent hk h

theorem Nested.closing {count : Nat} {p : Position} (h : Nested false blocks ts) :
    Nested false (count + blocks) (List.replicate count ⟨.dedent, "", p⟩ ++ ts) := by
  induction count with
  | zero => simpa using h
  | succ count ih =>
    rw [Nat.add_right_comm, List.replicate_succ]
    exact .dedent rfl ih

/-- Every block that is open is closed, and no other. -/
theorem Nested.count (h : Nested atStart blocks ts) :
    countOf .indent ts + blocks = countOf .dedent ts := by
  induction h with
  | nil => rfl
  | @line _ _ t ts hk _ ih =>
    have hne (kind : TokenKind) (hkind : ¬ kind.OfLine) : (t.kind == kind) = false := by
      rw [beq_eq_false_iff_ne]
      exact fun h => hkind (h ▸ hk)
    simpa [countOf, List.countP_cons, hne .indent id, hne .dedent id] using ih
  | newline hk _ ih => simpa [countOf, List.countP_cons, hk] using ih
  | indent hk _ ih =>
    simp only [countOf, List.countP_cons, hk] at ih ⊢
    simp
    omega
  | dedent hk _ ih =>
    simp only [countOf, List.countP_cons, hk] at ih ⊢
    simp
    omega

namespace Lexer

/-- Whatever closes the blocks that are open, the tokens so far can be followed by it. -/
def Scan.Open (s : Scan) : Prop :=
  ∀ ts, Nested s.lineStart s.indents.length ts → Nested true 0 (s.tokens.reverse ++ ts)

theorem Spells.ofLine {kind : TokenKind} {cs : List Char} (h : Spells kind cs) : kind.OfLine := by
  cases kind <;> trivial

namespace Scan

variable {s s' : Scan}

theorem move_open (h : s.Open) (hm : Move s s') : s'.Open := by
  intro ts hts
  cases hm with
  | pass _ => exact h ts hts
  | deeper hl _ =>
    simp only [opened, settled, mark, passOver, List.reverse_cons, List.append_assoc,
      List.singleton_append]
    refine h _ ?_
    rw [hl]
    exact .indent rfl hts
  | back hl _ hlen =>
    simp only [closed, settled, passOver, List.reverse_append, List.reverse_replicate,
      List.append_assoc]
    refine h _ ?_
    rw [hlen]
    exact hts.closing.start
  | newline hl _ =>
    simp only [take, passOver, List.reverse_cons, List.append_assoc, List.singleton_append]
    exact h _ (.newline rfl hts)
  | word hl _ hspell =>
    simp only [take, passOver, List.reverse_cons, List.append_assoc, List.singleton_append]
    refine h _ (.line hspell.ofLine ?_)
    exact hl ▸ hts

theorem start_open (cs : List Char) : (start cs).Open := fun _ h => h

theorem finish_nested (h : s.Open) :
    ∃ body stop, s.finish = body ++ [stop] ∧ stop.kind = .stop ∧ Nested true 0 body := by
  obtain ⟨ends, hends, hfinish⟩ := finish_eq s
  refine ⟨_, _, hfinish, rfl, ?_⟩
  have hclosed : Nested false s.indents.length
      (List.replicate s.indents.length ⟨.dedent, "", s.pos⟩ ++ []) := Nested.closing .nil
  rw [List.append_nil] at hclosed
  rw [List.append_assoc]
  rcases hends with rfl | rfl
  · exact h _ hclosed.start
  · exact h _ (.newline rfl hclosed.start)

end Scan

theorem tokenize_nested {source : String} {ts : List Token} (h : tokenize source = .ok ts) :
    ∃ body stop, ts = body ++ [stop] ∧ stop.kind = .stop ∧ Nested true 0 body := by
  unfold tokenize at h
  have hrun := Scan.run_keeps (fun _ _ => Scan.move_open) (2 * source.toList.length + 1)
    (Scan.start_open source.toList)
  dsimp only at h
  split at h
  · next s hs =>
    cases h
    exact Scan.finish_nested (hrun.1 s hs)
  · cases h

end Lexer

end Offside
