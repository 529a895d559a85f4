import Mathlib
import Offside.Proofs.Lexer.Step

/-!
What a step of the lexer can do, whatever the text is. A move passes over the start of the text that
is left and adds at most one token of a line, or settles the indentation of a line. What every move
keeps holds of the whole reading, and of the place where it is given up.
-/

namespace Offside

/-- Tokens of a line, as opposed to those that lay out lines and blocks. -/
def TokenKind.OfLine : TokenKind → Prop
  | .newline | .indent | .dedent | .stop => False
  | _ => True

namespace Lexer

def Digits (cs : List Char) : Prop := cs ≠ [] ∧ ∀ c ∈ cs, Text.isDigit c = true

/-- The texts that the lexer takes for a token of a line; all but those of numbers are left open. -/
def Spells (kind : TokenKind) (cs : List Char) : Prop :=
  match kind with
  | .integer => Digits cs
  | .float => ∃ ds fs, cs = ds ++ '.' :: fs ∧ Digits ds ∧ Digits fs
  | kind => kind.OfLine

namespace Scan

/-- A scan with the indentation of its line settled. -/
def settled (s : Scan) : Scan := { s with lineStart := false }

def opened (s : Scan) (width : Nat) : Scan :=
  { s with indents := width :: s.indents }.mark .indent

/-- A scan with all but the outer levels closed, one DEDENT each. -/
def closed (s : Scan) (count : Nat) (outer : List Nat) : Scan :=
  { s with indents := outer, tokens := List.replicate count ⟨.dedent, "", s.pos⟩ ++ s.tokens }

inductive Move (s : Scan) : Scan → Prop where
  | pass {taken rest : List Char} : s.rest = taken ++ rest → Move s (s.passOver taken rest)
  | deeper {taken rest : List Char} {width : Nat} : s.lineStart = true → s.rest = taken ++ rest →
      Move s ((s.passOver taken rest).settled.opened width)
  | back {taken rest : List Char} {count : Nat} {outer : List Nat} : s.lineStart = true →
      s.rest = taken ++ rest → s.indents.length = count + outer.length →
      Move s ((s.passOver taken rest).settled.closed count outer)
  | newline {rest : List Char} : s.lineStart = false → s.rest = '\n' :: rest →
      Move s { s.take .newline ['\n'] rest with lineStart := true }
  | word {kind : TokenKind} {taken rest : List Char} {depth : Nat} : s.lineStart = false →
      s.rest = taken ++ rest → Spells kind taken →
      Move s { s.take kind taken rest with depth := depth }

variable {s s' : Scan}

theorem closeTo_closed (width : Nat) (is : List Nat) (s : Scan) :
    ∃ count outer, is.length = count + outer.length ∧
      closeTo width is s = s.closed count outer := by
  induction is generalizing s with
  | nil => exact ⟨0, [], rfl, rfl⟩
  | cons w is ih =>
    rw [closeTo]
    split
    · obtain ⟨count, outer, hlen, hclose⟩ := ih (s.mark .dedent)
      refine ⟨count + 1, outer, by rw [List.length_cons, hlen]; omega, ?_⟩
      rw [hclose]
      simp [closed, mark, List.replicate_succ']
    · exact ⟨0, w :: is, (Nat.zero_add _).symm, rfl⟩

theorem passOver_passOver (s : Scan) (taken taken' rest rest' : List Char) :
    (s.passOver taken rest).passOver taken' rest' = s.passOver (taken ++ taken') rest' := by
  simp [passOver, Position.after, List.foldl_append]

theorem skipComment_pass (s : Scan) :
    ∃ taken rest, s.rest = taken ++ rest ∧ s.skipComment = s.passOver taken rest :=
  ⟨_, _, List.takeWhile_append_dropWhile.symm, rfl⟩

theorem skipLine_pass (s : Scan) :
    ∃ taken rest, s.rest = taken ++ rest ∧ s.skipLine = s.passOver taken rest := by
  obtain ⟨taken, rest, hs, hc⟩ := skipComment_pass s
  rw [skipLine, hc]
  cases rest with
  | nil => exact ⟨taken, [], hs, rfl⟩
  | cons c rest =>
    refine ⟨taken ++ [c], rest, by rw [hs, List.append_assoc]; rfl, ?_⟩
    exact passOver_passOver s taken [c] (c :: rest) rest

/-- A step moves on, or gives up before some text that is left. -/
def Goes (s : Scan) : Except LexError Scan → Prop
  | .ok s' => Move s s'
  | .error e => ∃ taken rest, s.rest = taken ++ rest ∧ e.pos = s.pos.after taken

theorem indentTo_goes {taken rest : List Char} (width : Nat) (hl : s.lineStart = true)
    (hs : s.rest = taken ++ rest) : Goes s ((s.passOver taken rest).settled.indentTo width) := by
  unfold indentTo
  dsimp only
  split
  · exact .deeper hl hs
  · obtain ⟨count, outer, hlen, hclose⟩ :=
      closeTo_closed width (s.passOver taken rest).settled.indents (s.passOver taken rest).settled
    rw [hclose]
    split
    · exact .back hl hs hlen
    · exact ⟨taken, rest, hs, rfl⟩

theorem stepLineStart_goes (hl : s.lineStart = true) : Goes s s.stepLineStart := by
  have hsplit : s.rest = s.rest.takeWhile isIndentation ++ s.rest.dropWhile isIndentation :=
    List.takeWhile_append_dropWhile.symm
  unfold stepLineStart
  dsimp only [passOver]
  split
  · exact .pass hsplit
  · split
    · obtain ⟨taken, rest', ht, he⟩ := skipLine_pass
        (s.passOver (s.rest.takeWhile isIndentation) (s.rest.dropWhile isIndentation))
      change Move s (Scan.skipLine (s.passOver _ _))
      rw [he, passOver_passOver]
      exact .pass (by rw [List.append_assoc, ← ht]; exact hsplit)
    · exact indentTo_goes _ hl hsplit

end Scan

theorem splitString_append (quote : Char) (cs : List Char) {body after : List Char}
    (h : splitString quote cs = some (body, after)) : cs = body ++ after := by
  fun_induction splitString quote cs generalizing body after with
  | case1 | case2 | case4 => cases h
  | case3 c rest hc ih =>
    obtain ⟨⟨body', after'⟩, hsplit, he⟩ := Option.map_eq_some_iff.mp h
    cases he
    rw [ih hsplit]
    rfl
  | case5 =>
    cases h
    rfl
  | case6 c rest hesc hc hq ih =>
    obtain ⟨⟨body', after'⟩, hsplit, he⟩ := Option.map_eq_some_iff.mp h
    cases he
    rw [ih hsplit]
    rfl

theorem splitNumber_spells {c : Char} {cs : List Char} (hc : Text.isDigit c = true)
    {kind : TokenKind} {number after : List Char}
    (h : splitNumber (c :: cs) = (kind, number, after)) :
    c :: cs = number ++ after ∧ Spells kind number := by
  have hsplit : c :: cs = (c :: cs).takeWhile Text.isDigit ++ (c :: cs).dropWhile Text.isDigit :=
    List.takeWhile_append_dropWhile.symm
  have hwhole : Digits ((c :: cs).takeWhile Text.isDigit) := by
    refine ⟨by simp [hc], fun d hd => ?_⟩
    exact List.mem_takeWhile_imp hd
  unfold splitNumber at h
  dsimp only at h
  split at h
  · next d rest hrest =>
    split at h
    · next hd =>
      cases h
      constructor
      · rw [hrest, ← List.takeWhile_append_dropWhile (p := Text.isDigit) (l := rest)] at hsplit
        refine hsplit.trans ?_
        simp
      · refine ⟨_, _, rfl, hwhole, by simp, fun e he => ?_⟩
        rcases List.mem_cons.mp he with rfl | he
        · exact hd
        · exact List.mem_takeWhile_imp he
    · cases h
      exact ⟨hrest ▸ hsplit, hwhole⟩
  · cases h
    exact ⟨hsplit, hwhole⟩

theorem wordKind_spells (cs : List Char) : Spells (wordKind cs) cs := by
  rcases wordKind_cases cs with hk | hk <;> rw [hk] <;> trivial

namespace Scan

variable {s s' : Scan}

theorem take_goes {kind : TokenKind} {taken rest : List Char} (hl : s.lineStart = false)
    (hs : s.rest = taken ++ rest) (h : Spells kind taken) :
    Goes s (.ok (s.take kind taken rest)) :=
  @Move.word s kind taken rest s.depth hl hs h

theorem stepInLine_goes {c : Char} {rest : List Char} (hl : s.lineStart = false)
    (hs : s.rest = c :: rest) : Goes s (s.stepInLine c rest) := by
  have hpass : Goes s (.ok (s.passOver [c] rest)) := .pass hs
  have hhere : ∀ fault, Goes s (.error ⟨fault, s.pos⟩) := fun _ => ⟨[], s.rest, rfl, rfl⟩
  unfold stepInLine
  split
  · next hc =>
    subst hc
    split
    · exact .newline hl hs
    · exact hpass
  split
  · exact hpass
  split
  · obtain ⟨taken, after, ht, he⟩ := skipComment_pass s
    rw [he]
    exact .pass ht
  split
  · refine take_goes hl ?_ (wordKind_spells _)
    rw [hs, List.cons_append, List.takeWhile_append_dropWhile]
  split
  · next hd =>
    obtain ⟨⟨kind, number, after⟩, hn⟩ : ∃ r, splitNumber (c :: rest) = r := ⟨_, rfl⟩
    obtain ⟨happ, hspell⟩ := splitNumber_spells hd hn
    rw [hn]
    exact take_goes hl (hs.trans happ) hspell
  split
  · split
    · next body after hb =>
      refine take_goes hl ?_ (show TokenKind.OfLine .string from trivial)
      rw [hs, splitString_append c rest hb, List.cons_append]
    · exact hhere _
  split
  · next op hop =>
    have hop := List.find?_some (p := fun op : List Char => op.isPrefixOf (c :: rest)) hop
    obtain ⟨after, ha⟩ := List.isPrefixOf_iff_prefix.mp hop
    refine take_goes hl ?_ (show TokenKind.OfLine .operator from trivial)
    rw [hs, ← ha, List.drop_left]
  · split
    · exact Move.word hl hs (show TokenKind.OfLine .delimiter from trivial)
    · exact hhere _

theorem step_goes (s : Scan) : Goes s s.step := by
  unfold step
  split
  · next hl => exact stepLineStart_goes hl
  · next hl =>
    split
    · exact .pass (show s.rest = [] ++ s.rest from rfl)
    · next c rest hr => exact stepInLine_goes (by simpa using hl) hr

/-- What every move keeps holds at the end of a reading, or of the scan at which it is given up. -/
theorem run_keeps {I : Scan → Prop} (hmove : ∀ s s', I s → Move s s' → I s') (n : Nat) (hs : I s) :
    (∀ s', run n s = .ok s' → I s') ∧
      ∀ e, run n s = .error e → ∃ s', I s' ∧ s'.step = .error e := by
  induction n generalizing s with
  | zero =>
    constructor
    · rintro _ ⟨⟩
      exact hs
    · rintro _ ⟨⟩
  | succ n ih =>
    rw [run]
    split
    · constructor
      · rintro _ ⟨⟩
        exact hs
      · rintro _ ⟨⟩
    · have hgoes := step_goes s
      split
      · next s' hstep =>
        rw [hstep] at hgoes
        exact ih (hmove s s' hs hgoes)
      · next e hstep =>
        constructor
        · rintro _ ⟨⟩
        · rintro _ ⟨⟩
          exact ⟨s, hs, hstep⟩

end Scan

end Lexer

end Offside
