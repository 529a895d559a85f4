import Offside.Proofs.Lexer.Turn
import Offside.Proofs.Lowered

/-!
A text inside a longer one. Up to its last line end a text is read in a longer one as it is read
alone: what follows has no part in a step, and what comes before moves the places down. Only a
change of level depends on the levels that are open already.
-/

namespace Offside.Lexer

/-- What is around a text in a longer one: the number of lines, the open levels and the tokens
before it, and the text after it. -/
structure Surround where
  lines : Nat
  indents : List Nat
  tokens : List Token
  after : List Char

/-- No step from here sees what follows. -/
def Surround.Cut (E : Surround) (cs : List Char) : Prop := E.after = [] ∨ '\n' ∈ cs

/-- What follows begins behind a line that ends here or before. -/
def Surround.Shut (E : Surround) (cs : List Char) : Prop :=
  (∀ c ∈ E.after.head?, c = '\n') ∨ '\n' ∈ cs

/-- At the start of a line without content. -/
def AtVoid (cs : List Char) : Prop :=
  ∀ c ∈ (cs.dropWhile isIndentation).head?, c = '\r' ∨ c = '\n' ∨ c = '#'

variable {E : Surround} {cs : List Char} {c : Char} {p : Char → Bool} {P : Prop}

/-! ### Texts -/

theorem newline_tail (h : P ∨ '\n' ∈ c :: cs) (hc : c ≠ '\n') : P ∨ '\n' ∈ cs :=
  h.imp_right fun h => (List.mem_cons.mp h).resolve_left hc.symm

theorem newline_dropWhile (hp : p '\n' = false) (h : P ∨ '\n' ∈ cs) :
    P ∨ '\n' ∈ cs.dropWhile p := by
  induction cs with
  | nil => exact h
  | cons c cs ih =>
    rw [List.dropWhile_cons]
    split
    · next hc =>
      refine ih (newline_tail h fun heq => ?_)
      rw [heq, hp] at hc
      cases hc
    · exact h

theorem cut_nil (h : E.Cut []) : E.after = [] :=
  h.elim id fun h => absurd h List.not_mem_nil

theorem cut_shut (h : E.Cut cs) : E.Shut cs := by
  refine h.imp_left fun h => ?_
  rw [h]
  exact nofun

theorem shut_nil (h : E.Shut []) : E.after = [] ∨ ∃ more, E.after = '\n' :: more := by
  have hhead := h.resolve_right List.not_mem_nil
  cases hafter : E.after with
  | nil => exact .inl rfl
  | cons c more =>
    obtain rfl : c = '\n' := hhead c (by rw [hafter]; rfl)
    exact .inr ⟨more, rfl⟩

/-- No run of characters goes on into what follows. -/
theorem shut_while (hp : p '\n' = false) (h : E.Shut []) :
    E.after.takeWhile p = [] ∧ E.after.dropWhile p = E.after := by
  rcases shut_nil h with hafter | ⟨more, hafter⟩
  · simp [hafter]
  · simp [hafter, hp]

theorem takeWhile_within (hp : p '\n' = false) (h : E.Shut cs) :
    (cs ++ E.after).takeWhile p = cs.takeWhile p := by
  induction cs with
  | nil => exact (shut_while hp h).1
  | cons c cs ih =>
    rw [List.cons_append, List.takeWhile_cons, List.takeWhile_cons]
    split
    · next hc =>
      rw [ih (newline_tail h fun heq => ?_)]
      rw [heq, hp] at hc
      cases hc
    · rfl

theorem dropWhile_within (hp : p '\n' = false) (h : E.Shut cs) :
    (cs ++ E.after).dropWhile p = cs.dropWhile p ++ E.after := by
  induction cs with
  | nil => exact (shut_while hp h).2
  | cons c cs ih =>
    rw [List.cons_append, List.dropWhile_cons, List.dropWhile_cons]
    split
    · next hc =>
      refine ih (newline_tail h fun heq => ?_)
      rw [heq, hp] at hc
      cases hc
    · rfl

theorem splitString_cons (q : Char) (hc : c ≠ '\\') (cs : List Char) :
    splitString q (c :: cs) =
      if c = '\n' then none else if c = q then some ([c], cs)
      else (splitString q cs).map fun (body, after) => (c :: body, after) := by
  rw [splitString.eq_def]
  simp [hc]

/-- No string goes on behind the end of its line, be it escaped. -/
theorem splitString_shut (q : Char) (h : E.Shut []) :
    splitString q E.after = none ∧ splitString q ('\\' :: E.after) = none := by
  rcases shut_nil h with hafter | ⟨more, hafter⟩
  · rw [hafter]
    exact ⟨rfl, rfl⟩
  · rw [hafter, splitString_cons q (by decide), splitString]
    exact ⟨rfl, rfl⟩

theorem splitString_within (q : Char) (h : E.Shut cs) :
    splitString q (cs ++ E.after) = (splitString q cs).map fun r => (r.1, r.2 ++ E.after) := by
  induction cs using splitString.induct q with
  | case1 => exact (splitString_shut q h).1
  | case2 rest =>
    rw [List.cons_append, List.cons_append, splitString, splitString, if_pos rfl]
    rfl
  | case3 c rest hc ih =>
    rw [List.cons_append, List.cons_append, splitString, splitString, if_neg hc, if_neg hc,
      ih (newline_tail (newline_tail h (by decide)) hc), Option.map_map, Option.map_map]
    rfl
  | case4 c rest hesc hc =>
    by_cases hback : c = '\\'
    · subst hback
      cases rest with
      | nil => exact (splitString_shut q (newline_tail h (by decide))).2
      | cons d rest => exact absurd rfl (hesc d rest rfl)
    · rw [List.cons_append, splitString_cons q hback, splitString_cons q hback,
        if_pos (hc.resolve_right hback), if_pos (hc.resolve_right hback)]
      rfl
  | case5 rest hesc hc =>
    obtain ⟨hline, hback⟩ := not_or.mp hc
    rw [List.cons_append, splitString_cons q hback, splitString_cons q hback, if_neg hline,
      if_neg hline, if_pos rfl, if_pos rfl]
    rfl
  | case6 c rest hesc hc hq ih =>
    obtain ⟨hline, hback⟩ := not_or.mp hc
    rw [List.cons_append, splitString_cons q hback, splitString_cons q hback, if_neg hline,
      if_neg hline, if_neg hq, if_neg hq, ih (newline_tail h hline), Option.map_map, Option.map_map]
    rfl

/-- What comes after the digits of a whole number. -/
def afterDigits (whole : List Char) : List Char → TokenKind × List Char × List Char
  | '.' :: d :: rest =>
    if Text.isDigit d then
      (.float, whole ++ '.' :: d :: rest.takeWhile Text.isDigit, rest.dropWhile Text.isDigit)
    else (.integer, whole, '.' :: d :: rest)
  | rest => (.integer, whole, rest)

theorem splitNumber_eq (cs : List Char) :
    splitNumber cs = afterDigits (cs.takeWhile Text.isDigit) (cs.dropWhile Text.isDigit) := rfl

theorem splitNumber_kind (cs : List Char) :
    (splitNumber cs).1 = .integer ∨ (splitNumber cs).1 = .float := by
  rw [splitNumber_eq, afterDigits.eq_def]
  split
  · split
    · exact .inr rfl
    · exact .inl rfl
  · exact .inl rfl

theorem afterDigits_plain {whole : List Char} (hc : c ≠ '.') :
    afterDigits whole (c :: cs) = (.integer, whole, c :: cs) := by
  unfold afterDigits
  split
  · next heq => exact absurd (List.cons.inj heq).1 hc
  · rfl

theorem afterDigits_within {whole : List Char} (h : E.Shut cs) : afterDigits whole (cs ++ E.after) =
    ((afterDigits whole cs).1, (afterDigits whole cs).2.1,
      (afterDigits whole cs).2.2 ++ E.after) := by
  have hline : Text.isDigit '\n' = false := by decide
  cases cs with
  | nil =>
    rw [List.nil_append]
    rcases shut_nil h with hafter | ⟨more, hafter⟩ <;> rw [hafter]
    · rfl
    · exact afterDigits_plain (by decide)
  | cons c cs =>
    by_cases hc : c = '.'
    · subst hc
      have htail : E.Shut cs := newline_tail h (by decide)
      cases cs with
      | nil =>
        rw [List.cons_append, List.nil_append]
        rcases shut_nil htail with hafter | ⟨more, hafter⟩ <;> rw [hafter]
        · rfl
        · rw [afterDigits, if_neg (by simp [hline])]
          rfl
      | cons d cs =>
        rw [List.cons_append, List.cons_append, afterDigits, afterDigits]
        split
        · next hd =>
          have hshut : E.Shut cs := newline_tail htail fun heq => by
            rw [heq, hline] at hd
            cases hd
          rw [takeWhile_within hline hshut, dropWhile_within hline hshut]
        · rfl
    · rw [List.cons_append, afterDigits_plain hc, afterDigits_plain hc]
      rfl

theorem splitNumber_within (h : E.Shut cs) : splitNumber (cs ++ E.after) =
    ((splitNumber cs).1, (splitNumber cs).2.1, (splitNumber cs).2.2 ++ E.after) := by
  have hline : Text.isDigit '\n' = false := by decide
  rw [splitNumber_eq, splitNumber_eq, takeWhile_within hline h, dropWhile_within hline h]
  exact afterDigits_within (newline_dropWhile hline h)

theorem isPrefixOf_within {op : List Char} (hop : op ∈ operators) (h : E.Shut cs) :
    op.isPrefixOf (cs ++ E.after) = op.isPrefixOf cs := by
  have hline : '\n' ∉ op := by
    revert op
    decide
  rw [Bool.eq_iff_iff, List.isPrefixOf_iff_prefix, List.isPrefixOf_iff_prefix]
  constructor
  · intro hprefix
    rcases List.prefix_or_prefix_of_prefix hprefix (List.prefix_append cs E.after) with hp | hp
    · exact hp
    · -- the operator would go on with the end of the line
      obtain ⟨more, rfl⟩ := hp
      rcases h with h | h
      · cases more with
        | nil => rw [List.append_nil]
        | cons c more =>
          obtain ⟨tail, htail⟩ := (List.prefix_append_right_inj cs).mp hprefix
          have hc : c = '\n' := h c (by rw [← htail]; rfl)
          exact absurd (by simp [hc]) hline
      · exact absurd (List.mem_append_left more h) hline
  · intro hprefix
    exact hprefix.trans (List.prefix_append cs E.after)

theorem operator_within (h : E.Shut cs) :
    operators.find? (·.isPrefixOf (cs ++ E.after)) = operators.find? (·.isPrefixOf cs) := by
  refine List.find?_congr fun op hop => ?_
  rw [isPrefixOf_within hop h]

/-! ### Fragments of a line -/

/-- What one step takes inside a line, the text after it and the brackets that are open then; blanks
and comments are no token. -/
structure Fragment where
  taken : List Char
  rest : List Char
  kind : Option TokenKind
  depth : Nat

/-- The fragment that starts with `c`, which is no line end, or why there is none. -/
def fragment (depth : Nat) (c : Char) (rest : List Char) : Except LexFault Fragment :=
  if isSpace c then .ok ⟨[c], rest, none, depth⟩
  else if c = '#' then
    .ok ⟨(c :: rest).takeWhile (!isLineEnd ·), (c :: rest).dropWhile (!isLineEnd ·), none, depth⟩
  else if Text.isLetter c ∨ c = '_' then
    let word := c :: rest.takeWhile Text.isWordChar
    .ok ⟨word, rest.dropWhile Text.isWordChar, some (wordKind word), depth⟩
  else if Text.isDigit c then
    let (kind, number, after) := splitNumber (c :: rest)
    .ok ⟨number, after, some kind, depth⟩
  else if c = '"' ∨ c = '\'' then
    match splitString c rest with
    | some (body, after) => .ok ⟨c :: body, after, some .string, depth⟩
    | none => .error .unterminatedString
  else match operators.find? (·.isPrefixOf (c :: rest)) with
    | some op => .ok ⟨op, (c :: rest).drop op.length, some .operator, depth⟩
    | none =>
      if delimiters.contains c then .ok ⟨[c], rest, some .delimiter, depthAfter depth c⟩
      else .error (.unknownCharacter c)

def Fragment.append (after : List Char) (x : Fragment) : Fragment :=
  { x with rest := x.rest ++ after }

/-- A fragment is found by the line that it is in. -/
theorem fragment_within (depth : Nat) (hc : c ≠ '\n') (h : E.Shut (c :: cs)) :
    fragment depth c (cs ++ E.after) = (fragment depth c cs).map (Fragment.append E.after) := by
  have hshut : E.Shut cs := newline_tail h hc
  unfold fragment
  split
  · rfl
  split
  · have hline : (!isLineEnd '\n') = false := rfl
    rw [← List.cons_append, takeWhile_within hline h, dropWhile_within hline h]
    rfl
  split
  · have hword : Text.isWordChar '\n' = false := by decide
    rw [takeWhile_within hword hshut, dropWhile_within hword hshut]
    rfl
  split
  · have hnumber := splitNumber_within h
    rw [List.cons_append] at hnumber
    rw [hnumber]
    rfl
  split
  · rw [splitString_within c hshut]
    cases splitString c cs <;> rfl
  · have hfind := operator_within h
    rw [List.cons_append] at hfind
    rw [hfind]
    cases hop : operators.find? (·.isPrefixOf (c :: cs)) with
    | none =>
      dsimp only
      split <;> rfl
    | some op =>
      have hprefix := List.isPrefixOf_iff_prefix.mp
        (List.find?_some (p := fun op : List Char => op.isPrefixOf (c :: cs)) hop)
      dsimp only
      rw [← List.cons_append, List.drop_append_of_le_length hprefix.length_le]
      rfl

/-- A fragment is the start of what is left of its line. -/
theorem fragment_split {depth : Nat} {rest : List Char} {x : Fragment} (hc : c ≠ '\n')
    (h : fragment depth c rest = .ok x) : c :: rest = x.taken ++ x.rest ∧ OneLine x.taken := by
  unfold fragment at h
  split at h
  · cases h
    exact ⟨rfl, .cons hc List.not_mem_nil⟩
  split at h
  · cases h
    refine ⟨?_, Scan.oneLine_takeWhile (c :: rest)⟩
    change _ = (c :: rest).takeWhile (!isLineEnd ·) ++ (c :: rest).dropWhile (!isLineEnd ·)
    rw [List.takeWhile_append_dropWhile]
  split at h
  · next hname =>
    cases h
    refine ⟨?_, (name_isWord hname).oneLine⟩
    change _ = c :: rest.takeWhile Text.isWordChar ++ rest.dropWhile Text.isWordChar
    rw [List.cons_append, List.takeWhile_append_dropWhile]
  split at h
  · next hd =>
    obtain ⟨⟨kind, number, after⟩, hn⟩ : ∃ r, splitNumber (c :: rest) = r := ⟨_, rfl⟩
    rw [hn] at h
    cases h
    exact ⟨(splitNumber_spells hd hn).1, (number_isWord hd hn).1.oneLine⟩
  split at h
  · next hq =>
    split at h
    · next body after hb =>
      cases h
      exact ⟨congrArg (c :: ·) (splitString_append c rest hb), (string_isWord hq hb).oneLine⟩
    · cases h
  split at h
  · next op hop =>
    cases h
    have hprefix := List.find?_some (p := fun op : List Char => op.isPrefixOf (c :: rest)) hop
    obtain ⟨after, hafter⟩ := List.isPrefixOf_iff_prefix.mp hprefix
    refine ⟨?_, (operator_isWord (List.mem_of_find?_eq_some hop)).oneLine⟩
    change c :: rest = op ++ (c :: rest).drop op.length
    rw [← hafter, List.drop_left]
  · split at h
    · cases h
      exact ⟨rfl, .cons hc List.not_mem_nil⟩
    · cases h

theorem fragment_depth {depth : Nat} {rest : List Char} {x : Fragment} {kind : TokenKind}
    (h : fragment depth c rest = .ok x) (hk : x.kind = some kind) :
    x.depth = wordDepth depth ⟨kind, String.ofList x.taken⟩ := by
  unfold fragment at h
  split at h
  · cases h
    cases hk
  split at h
  · cases h
    cases hk
  split at h
  · cases h
    obtain rfl := Option.some.inj hk
    rw [wordDepth_of_kind]
    rcases wordKind_cases (c :: rest.takeWhile Text.isWordChar) with hw | hw <;> rw [hw] <;> simp
  split at h
  · have hnumber := splitNumber_kind (c :: rest)
    obtain ⟨⟨kind', number, after⟩, hn⟩ : ∃ r, splitNumber (c :: rest) = r := ⟨_, rfl⟩
    rw [hn] at h hnumber
    cases h
    obtain rfl := Option.some.inj hk
    rw [wordDepth_of_kind]
    rcases hnumber with hw | hw <;> simp only at hw <;> simp [hw]
  split at h
  · split at h
    · cases h
      obtain rfl := Option.some.inj hk
      rw [wordDepth_of_kind (by simp)]
    · cases h
  split at h
  · cases h
    obtain rfl := Option.some.inj hk
    rw [wordDepth_of_kind (by simp)]
  · split at h
    · cases h
      obtain rfl := Option.some.inj hk
      simp [wordDepth]
    · cases h

/-- A fragment that is a token is a word of its kind. -/
theorem fragment_isWord {depth : Nat} {rest : List Char} {x : Fragment} {kind : TokenKind}
    (h : fragment depth c rest = .ok x) (hk : x.kind = some kind) : IsWord kind x.taken := by
  unfold fragment at h
  split at h
  · cases h
    cases hk
  split at h
  · cases h
    cases hk
  split at h
  · next hname =>
    cases h
    cases hk
    exact name_isWord hname
  split at h
  · next hd =>
    obtain ⟨⟨kind', number, after⟩, hn⟩ : ∃ r, splitNumber (c :: rest) = r := ⟨_, rfl⟩
    rw [hn] at h
    cases h
    cases hk
    exact (number_isWord hd hn).1
  split at h
  · next hq =>
    split at h
    · next body after hb =>
      cases h
      cases hk
      exact string_isWord hq hb
    · cases h
  split at h
  · next op hop =>
    cases h
    cases hk
    exact operator_isWord (List.mem_of_find?_eq_some hop)
  · split at h
    · next hd =>
      cases h
      cases hk
      exact delimiter_isWord (by simpa using hd)
    · cases h

/-! ### Scans -/

namespace Scan

/-- A scan of the longer text. -/
def within (E : Surround) (s : Scan) : Scan :=
  ⟨s.rest ++ E.after, s.pos.lower E.lines, s.indents ++ E.indents, s.depth, s.lineStart,
    s.tokens.map (Token.lower E.lines) ++ E.tokens⟩

variable {s : Scan}

theorem skip_within (taken rest : List Char) :
    (s.within E).passOver taken (rest ++ E.after) = (s.passOver taken rest).within E := by
  simp only [passOver, within, Position.after_lower]

theorem take_within (kind : TokenKind) (taken rest : List Char) :
    (s.within E).take kind taken (rest ++ E.after) = (s.take kind taken rest).within E := by
  unfold take
  rw [skip_within]
  rfl

theorem mark_within (kind : TokenKind) : (s.within E).mark kind = (s.mark kind).within E := rfl

theorem skipComment_within (h : E.Shut s.rest) :
    (s.within E).skipComment = s.skipComment.within E := by
  have hline : (!isLineEnd '\n') = false := rfl
  unfold skipComment
  rw [← skip_within, ← takeWhile_within hline h, ← dropWhile_within hline h]
  rfl

theorem skipLine_within (h : E.Cut s.rest) : (s.within E).skipLine = s.skipLine.within E := by
  have hcut : E.Cut s.skipComment.rest := newline_dropWhile rfl h
  unfold skipLine
  rw [skipComment_within (cut_shut h)]
  generalize s.skipComment = s at hcut
  dsimp only
  cases hr : s.rest with
  | nil =>
    have hafter : E.after = [] := cut_nil (hr ▸ hcut)
    have hrest : (s.within E).rest = [] := by simp [within, hr, hafter]
    rw [hrest]
  | cons c rest =>
    have hrest : (s.within E).rest = c :: (rest ++ E.after) := by simp [within, hr]
    rw [hrest]
    exact skip_within [c] rest

/-- What becomes of a step in the longer text. -/
def carried (E : Surround) : Except LexError Scan → Except LexError Scan
  | .ok s => .ok (s.within E)
  | .error e => .error (e.lower E.lines)

theorem closeTo_within (hE : E.indents = []) (width : Nat) (is : List Nat) (s : Scan) :
    closeTo width is (s.within E) = (closeTo width is s).within E := by
  induction is generalizing s with
  | nil => simp [closeTo, within, hE]
  | cons w is ih =>
    rw [closeTo, closeTo]
    split
    · rw [mark_within, ih]
    · simp [within, hE]

theorem indentTo_within (hE : E.indents = []) (width : Nat) :
    (s.within E).indentTo width = carried E (s.indentTo width) := by
  have hindents (s : Scan) : (s.within E).indents = s.indents := by simp [within, hE]
  unfold indentTo
  simp only [hindents, closeTo_within hE]
  split
  · simp only [carried, within, mark, hE, List.append_nil]
    rfl
  · split
    · rfl
    · rfl

theorem stepLineStart_within (h : E.Cut s.rest) (hE : E.indents = [] ∨ AtVoid s.rest) :
    (s.within E).stepLineStart = carried E s.stepLineStart := by
  have hline : isIndentation '\n' = false := rfl
  have hcut : E.Cut (s.rest.dropWhile isIndentation) := newline_dropWhile hline h
  have hlead : (s.within E).rest.takeWhile isIndentation = s.rest.takeWhile isIndentation :=
    takeWhile_within hline (cut_shut h)
  have htail : (s.within E).rest.dropWhile isIndentation =
      s.rest.dropWhile isIndentation ++ E.after := dropWhile_within hline (cut_shut h)
  unfold stepLineStart
  unfold AtVoid at hE
  dsimp only
  rw [hlead, htail, skip_within]
  generalize s.rest.takeWhile isIndentation = lead
  generalize s.rest.dropWhile isIndentation = tail at hcut hE
  cases tail with
  | nil =>
    rw [show ((s.passOver lead []).within E).rest = [] from cut_nil hcut]
    rfl
  | cons c rest =>
    have hskip : E.Cut (s.passOver lead (c :: rest)).rest := hcut
    rw [show ((s.passOver lead (c :: rest)).within E).rest = c :: (rest ++ E.after) from rfl,
      show (s.passOver lead (c :: rest)).rest = c :: rest from rfl]
    dsimp only
    split
    · rw [skipLine_within hskip]
      rfl
    · next hcontent =>
      have hindents := hE.resolve_right fun hvoid => hcontent (hvoid c rfl)
      exact indentTo_within (s := (s.passOver lead (c :: rest)).settled) hindents (width lead)

/-- Passes over a fragment. -/
def pass (s : Scan) (x : Fragment) : Scan :=
  { s.passOver x.taken x.rest with
    depth := x.depth
    tokens := (x.kind.map fun kind => ⟨kind, String.ofList x.taken, s.pos⟩).toList ++ s.tokens }

/-- What a scan does with a fragment of its line. -/
def passed (s : Scan) : Except LexFault Fragment → Except LexError Scan
  | .ok x => .ok (s.pass x)
  | .error f => .error ⟨f, s.pos⟩

theorem stepInLine_fragment {rest : List Char} (hs : s.rest = c :: rest) (hc : c ≠ '\n') :
    s.stepInLine c rest = s.passed (fragment s.depth c rest) := by
  unfold stepInLine fragment
  rw [if_neg hc]
  split
  · rfl
  split
  · rw [skipComment, hs]
    rfl
  split
  · rfl
  split
  · rfl
  split
  · cases splitString c rest <;> rfl
  · cases operators.find? (·.isPrefixOf (c :: rest)) with
    | none =>
      dsimp only
      split <;> rfl
    | some op => rfl

theorem pass_within (x : Fragment) : (s.within E).pass (x.append E.after) = (s.pass x).within E := by
  unfold pass
  rw [show (x.append E.after).rest = x.rest ++ E.after from rfl, skip_within]
  cases hk : x.kind <;> simp [Fragment.append, within, passOver, hk, Token.lower]

theorem passed_within (r : Except LexFault Fragment) :
    (s.within E).passed (r.map (Fragment.append E.after)) = carried E (s.passed r) := by
  cases r with
  | error f => rfl
  | ok x => exact congrArg Except.ok (pass_within x)

theorem stepInLine_within {rest : List Char} (hs : s.rest = c :: rest) (h : E.Shut s.rest) :
    (s.within E).stepInLine c (rest ++ E.after) = carried E (s.stepInLine c rest) := by
  by_cases hc : c = '\n'
  · unfold stepInLine
    rw [if_pos hc, if_pos hc]
    change (if s.depth = 0 then _ else _) = _
    split
    · rw [take_within]
      rfl
    · rw [skip_within]
      rfl
  · have hwithin : (s.within E).rest = c :: (rest ++ E.after) := by simp [within, hs]
    rw [stepInLine_fragment hs hc, stepInLine_fragment hwithin hc]
    rw [hs] at h
    change (s.within E).passed (fragment s.depth c (rest ++ E.after)) = _
    rw [fragment_within s.depth hc h, passed_within]

/-- Inside a line a step does not see past its end. -/
theorem step_inside (hl : s.lineStart = false) (hne : s.rest ≠ []) (h : E.Shut s.rest) :
    (s.within E).step = carried E s.step := by
  obtain ⟨c, rest, hr⟩ := List.exists_cons_of_ne_nil hne
  have hwithin : (s.within E).rest = c :: (rest ++ E.after) := by simp [within, hr]
  rw [step_eq hl hr, step_eq (s := s.within E) hl hwithin]
  exact stepInLine_within hr h

theorem AtLine.longer {lead more : List Char} (h : s.AtLine lead c more) :
    (s.within E).AtLine lead c (more ++ E.after) := by
  refine ⟨h.lineStart, ?_, h.lead, h.content⟩
  simp [Scan.within, h.text]

/-- Nor does it at the start of a line with content. -/
theorem AtLine.step_longer {lead more : List Char} (h : s.AtLine lead c more)
    (hE : E.indents = []) : (s.within E).step = carried E s.step := by
  rw [h.longer.step_eq, h.step_eq, ← indentTo_within hE]
  unfold settled
  rw [← List.cons_append, skip_within]
  rfl

/-- A step in the longer text is the step in the text. -/
theorem step_within (h : E.Cut s.rest)
    (hE : E.indents = [] ∨ s.lineStart = true ∧ AtVoid s.rest) :
    (s.within E).step = carried E s.step := by
  by_cases hl : s.lineStart = true
  · unfold step
    rw [if_pos hl, if_pos (show (s.within E).lineStart = true from hl)]
    exact stepLineStart_within h (hE.imp_right And.right)
  · by_cases hr : s.rest = []
    · have hwithin : (s.within E).rest = [] := by simp [within, hr, cut_nil (hr ▸ h)]
      unfold step
      rw [if_neg hl, if_neg (show ¬ (s.within E).lineStart = true from hl), hr, hwithin]
      rfl
    · exact step_inside (by simpa using hl) hr (cut_shut h)

theorem next_of_carried {s' : Scan} (h : Next s s') (hstep : (s.within E).step = carried E s.step) :
    Next (s.within E) (s'.within E) := by
  refine ⟨List.append_ne_nil_of_left_ne_nil h.1 _, ?_⟩
  rw [hstep, h.2]
  rfl

theorem next_within {s' : Scan} (h : Next s s') (hcut : E.Cut s.rest)
    (hE : E.indents = [] ∨ s.lineStart = true ∧ AtVoid s.rest) :
    Next (s.within E) (s'.within E) :=
  next_of_carried h (step_within hcut hE)

end Scan

end Offside.Lexer
