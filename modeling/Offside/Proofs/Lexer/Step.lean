import Offside.Proofs.Numeral

/-!
The steps of the lexer inside a line. A view of a scan forgets places; whole runs are stated
between views, and each word of the language takes one step when what follows it cannot belong
to it.
-/

namespace Offside

/-- A token without its place. -/
structure Word where
  kind : TokenKind
  lexeme : String
  deriving DecidableEq, Repr

def Token.word (t : Token) : Word := ⟨t.kind, t.lexeme⟩

namespace Lexer

/-- A scan without places, its words in the order of the text. -/
structure View where
  rest : List Char
  indents : List Nat
  depth : Nat
  lineStart : Bool
  words : List Word

def Scan.view (s : Scan) : View :=
  ⟨s.rest, s.indents, s.depth, s.lineStart, s.tokens.reverse.map Token.word⟩

/-- Bounds the number of steps that are left. -/
def View.measure (v : View) : Nat := 2 * v.rest.length + if v.lineStart then 1 else 0

def Leads (s s' : Scan) : Prop :=
  ∃ n, n + s'.view.measure ≤ s.view.measure ∧ ∀ fuel, Scan.run (n + fuel) s = Scan.run fuel s'

/-- From every scan of one view some steps lead to a scan of the other. -/
def Reaches (v v' : View) : Prop := ∀ s : Scan, s.view = v → ∃ s', Leads s s' ∧ s'.view = v'

theorem leads_refl (s : Scan) : Leads s s :=
  ⟨0, by omega, fun fuel => by rw [Nat.zero_add]⟩

theorem leads_trans {a b c : Scan} (h : Leads a b) (k : Leads b c) : Leads a c := by
  obtain ⟨m, hm, hab⟩ := h
  obtain ⟨n, hn, hbc⟩ := k
  exact ⟨m + n, by omega, fun fuel => by rw [Nat.add_assoc, hab, hbc]⟩

theorem reaches_refl (v : View) : Reaches v v := fun s h => ⟨s, leads_refl s, h⟩

theorem reaches_trans {u v w : View} (h : Reaches u v) (k : Reaches v w) : Reaches u w := by
  intro s hs
  obtain ⟨s', hl, hv⟩ := h s hs
  obtain ⟨s'', hl', hw⟩ := k s' hv
  exact ⟨s'', leads_trans hl hl', hw⟩

/-- A step that takes text, or settles the start of a line. -/
theorem reaches_step {v v' : View} (hne : v.rest ≠ []) (hm : v'.measure < v.measure)
    (h : ∀ s : Scan, s.view = v → ∃ s', s.step = .ok s' ∧ s'.view = v') : Reaches v v' := by
  intro s hs
  obtain ⟨s', hstep, hv⟩ := h s hs
  have hrest : s.rest ≠ [] := by
    rw [← hs] at hne
    exact hne
  refine ⟨s', ⟨1, by rw [hs, hv]; omega, ?_⟩, hv⟩
  intro fuel
  rw [Nat.add_comm, Scan.run, if_neg (by simpa using hrest), hstep]

theorem run_of_reaches {v : View} {s : Scan} (h : Reaches s.view v) (hend : v.rest = []) {n : Nat}
    (hn : s.view.measure ≤ n) : ∃ s', Scan.run n s = .ok s' ∧ s'.view = v := by
  obtain ⟨s', ⟨m, hm, hrun⟩, hv⟩ := h s rfl
  have hrest : s'.rest = [] := by
    rw [← hv] at hend
    exact hend
  refine ⟨s', ?_, hv⟩
  have hstop : ∀ fuel, Scan.run fuel s' = .ok s' := by
    intro fuel
    cases fuel with
    | zero => rfl
    | succ fuel => rw [Scan.run, if_pos (by simp [hrest])]
  rw [show n = m + (n - m) by omega, hrun, hstop]

/-! ### Words -/

/-- The words that a line may hold, as they are spelled. -/
inductive Lexable : Word → Prop where
  | name {c : Char} {cs : List Char} : Text.isLetter c = true ∨ c = '_' →
      (∀ d ∈ cs, Text.isWordChar d = true) →
      Lexable ⟨wordKind (c :: cs), String.ofList (c :: cs)⟩
  | digits {cs : List Char} : IsDigits cs → Lexable ⟨.integer, String.ofList cs⟩
  | string {cs : List Char} : (∀ rest, splitString '"' (cs ++ rest) = some (cs, rest)) →
      Lexable ⟨.string, String.ofList ('"' :: cs)⟩
  | operator {op : List Char} : op ∈ operators → Lexable ⟨.operator, String.ofList op⟩
  | delimiter {c : Char} : c ∈ delimiters → Lexable ⟨.delimiter, String.ofList [c]⟩

/-- What follows a word does not go on with it. -/
def Ends (w : Word) (rest : List Char) : Prop :=
  match w.kind with
  | .keyword | .identifier => ∀ c ∈ rest.head?, Text.isWordChar c = false
  | .integer => ∀ c ∈ rest.head?, Text.isDigit c = false ∧ c ≠ '.'
  | .operator => ∀ c ∈ rest.head?, c ≠ '='
  | _ => True

def wordDepth (depth : Nat) (w : Word) : Nat :=
  match w.kind, w.lexeme.toList with
  | .delimiter, [c] => depthAfter depth c
  | _, _ => depth

variable {rest : List Char} {indents : List Nat} {depth : Nat} {ws : List Word}

theorem takeWhile_all {p : Char → Bool} {cs : List Char} (h : ∀ c ∈ cs, p c = true)
    (hrest : ∀ c ∈ rest.head?, p c = false) :
    (cs ++ rest).takeWhile p = cs ∧ (cs ++ rest).dropWhile p = rest := by
  have hstop : rest.takeWhile p = [] ∧ rest.dropWhile p = rest := by
    cases rest with
    | nil => simp
    | cons c rest => simp [hrest c rfl]
  rw [List.takeWhile_append_of_pos h, List.dropWhile_append_of_pos h, hstop.1, hstop.2]
  simp

theorem reaches_blank :
    Reaches ⟨' ' :: rest, indents, depth, false, ws⟩ ⟨rest, indents, depth, false, ws⟩ := by
  apply reaches_step (by simp) (by simp [View.measure])
  intro s hs
  obtain ⟨r, p, i, d, l, t⟩ := s
  cases hs
  exact ⟨_, rfl, rfl⟩

theorem reaches_newline :
    Reaches ⟨'\n' :: rest, indents, 0, false, ws⟩
      ⟨rest, indents, 0, true, ws ++ [⟨.newline, "\n"⟩]⟩ := by
  apply reaches_step (by simp) (by simp [View.measure]; omega)
  intro s hs
  obtain ⟨r, p, i, d, l, t⟩ := s
  cases hs
  exact ⟨_, rfl, by simp [Scan.view, Scan.take, Scan.passOver, Token.word]⟩

theorem reaches_taken {kind : TokenKind} {cs : List Char} (hne : cs ≠ [])
    (h : ∀ s : Scan, s.lineStart = false → s.rest = cs ++ rest →
      s.step = .ok (s.take kind cs rest)) :
    Reaches ⟨cs ++ rest, indents, depth, false, ws⟩
      ⟨rest, indents, depth, false, ws ++ [⟨kind, String.ofList cs⟩]⟩ := by
  have hlen := List.length_pos_iff.mpr hne
  refine reaches_step (by simp [hne]) ?_ ?_
  · simp only [View.measure, List.length_append]
    omega
  · intro s hs
    obtain ⟨r, p, i, d, l, t⟩ := s
    cases hs
    exact ⟨_, h _ rfl rfl, by simp [Scan.view, Scan.take, Scan.passOver, Token.word]⟩

theorem step_eq {s : Scan} {c : Char} {cs : List Char} (hl : s.lineStart = false)
    (hr : s.rest = c :: cs) : s.step = s.stepInLine c cs := by
  rw [Scan.step, if_neg (by simp [hl]), hr]

structure Inner (c : Char) : Prop where
  newline : c ≠ '\n'
  space : isSpace c = false
  comment : c ≠ '#'

theorem name_inner {c : Char} (h : Text.isLetter c = true ∨ c = '_') : Inner c := by
  have hall : ∀ d ∈ ['\n', ' ', '\t', '\r', '\x0c', '#'],
      ¬ (Text.isLetter d = true ∨ d = '_') := List.all_iff_forall_prop.mp (by decide)
  have hne : ∀ d ∈ ['\n', ' ', '\t', '\r', '\x0c', '#'], c ≠ d := by
    intro d hd hc
    exact hall d hd (hc ▸ h)
  refine ⟨hne _ (by simp), ?_, hne _ (by simp)⟩
  simp [isSpace, hne]

theorem stepInLine_name {s : Scan} {c : Char} {cs : List Char}
    (hc : Text.isLetter c = true ∨ c = '_') :
    s.stepInLine c cs = .ok (s.take (wordKind (c :: cs.takeWhile Text.isWordChar))
      (c :: cs.takeWhile Text.isWordChar) (cs.dropWhile Text.isWordChar)) := by
  obtain ⟨h₁, h₂, h₃⟩ := name_inner hc
  rw [Scan.stepInLine, if_neg h₁, h₂, if_neg Bool.false_ne_true, if_neg h₃, if_pos hc]

theorem reaches_name {c : Char} {cs : List Char} (hc : Text.isLetter c = true ∨ c = '_')
    (hcs : ∀ d ∈ cs, Text.isWordChar d = true)
    (hrest : ∀ d ∈ rest.head?, Text.isWordChar d = false) :
    Reaches ⟨c :: cs ++ rest, indents, depth, false, ws⟩
      ⟨rest, indents, depth, false, ws ++ [⟨wordKind (c :: cs), String.ofList (c :: cs)⟩]⟩ := by
  apply reaches_taken (by simp)
  intro s hl hr
  obtain ⟨h₁, h₂⟩ := takeWhile_all hcs hrest
  rw [List.cons_append] at hr
  rw [step_eq hl hr, stepInLine_name hc, h₁, h₂]

theorem digit_plain {c : Char} (h : c.isDigit = true) :
    Inner c ∧ Text.isLetter c = false ∧ c ≠ '_' ∧ Text.isDigit c = true := by
  have hall : ∀ c ∈ ['0', '1', '2', '3', '4', '5', '6', '7', '8', '9'],
      (c ≠ '\n' ∧ isSpace c = false ∧ c ≠ '#') ∧ Text.isLetter c = false ∧ c ≠ '_' ∧
        Text.isDigit c = true := List.all_iff_forall_prop.mp (by decide)
  obtain ⟨⟨h₁, h₂, h₃⟩, h⟩ := hall c (Number.digit_mem h)
  exact ⟨⟨h₁, h₂, h₃⟩, h⟩

theorem splitNumber_digits {cs : List Char} (hcs : ∀ c ∈ cs, Text.isDigit c = true)
    (hrest : ∀ c ∈ rest.head?, Text.isDigit c = false ∧ c ≠ '.') :
    splitNumber (cs ++ rest) = (.integer, cs, rest) := by
  obtain ⟨h₁, h₂⟩ := takeWhile_all hcs fun c hc => (hrest c hc).1
  unfold splitNumber
  simp only [h₁, h₂]
  split
  · next d tail => exact absurd rfl (hrest '.' rfl).2
  · rfl

theorem reaches_digits {cs : List Char} (hcs : IsDigits cs)
    (hrest : ∀ c ∈ rest.head?, Text.isDigit c = false ∧ c ≠ '.') :
    Reaches ⟨cs ++ rest, indents, depth, false, ws⟩
      ⟨rest, indents, depth, false, ws ++ [⟨.integer, String.ofList cs⟩]⟩ := by
  apply reaches_taken hcs.1
  intro s hl hr
  obtain ⟨hne, hd⟩ := hcs
  have hn := splitNumber_digits (fun c hc => (digit_plain (hd c hc)).2.2.2) hrest
  cases cs with
  | nil => exact absurd rfl hne
  | cons c cs =>
    obtain ⟨⟨h₁, h₂, h₃⟩, h₄, h₅, h₆⟩ := digit_plain (hd c List.mem_cons_self)
    have hletter : ¬ (Text.isLetter c = true ∨ c = '_') := by simp [h₄, h₅]
    rw [List.cons_append] at hn hr
    rw [step_eq hl hr, Scan.stepInLine, if_neg h₁, h₂, if_neg Bool.false_ne_true, if_neg h₃,
      if_neg hletter, if_pos h₆, hn]

theorem reaches_string {cs : List Char}
    (h : ∀ rest, splitString '"' (cs ++ rest) = some (cs, rest)) :
    Reaches ⟨'"' :: cs ++ rest, indents, depth, false, ws⟩
      ⟨rest, indents, depth, false, ws ++ [⟨.string, String.ofList ('"' :: cs)⟩]⟩ := by
  apply reaches_taken (by simp)
  intro s hl hr
  have hletter : ¬ (Text.isLetter '"' = true ∨ '"' = '_') := by decide
  have hdigit : ¬ Text.isDigit '"' = true := by decide
  rw [List.cons_append] at hr
  rw [step_eq hl hr, Scan.stepInLine, if_neg (by decide), if_neg (by decide), if_neg (by decide),
    if_neg hletter, if_neg hdigit, if_pos (by simp), h]

/-- What starts neither a name nor a number nor a string. -/
structure Symbolic (c : Char) : Prop extends Inner c where
  letter : ¬ (Text.isLetter c = true ∨ c = '_')
  digit : ¬ Text.isDigit c = true
  quote : ¬ (c = '"' ∨ c = '\'')

theorem stepInLine_symbolic {s : Scan} {c : Char} {cs : List Char} (h : Symbolic c) :
    s.stepInLine c cs =
      match operators.find? (·.isPrefixOf (c :: cs)) with
      | some op => .ok (s.take .operator op ((c :: cs).drop op.length))
      | none =>
        if delimiters.contains c then
          .ok { s.take .delimiter [c] cs with depth := depthAfter s.depth c }
        else .error ⟨.unknownCharacter c, s.pos⟩ := by
  rw [Scan.stepInLine, if_neg h.newline, h.space, if_neg Bool.false_ne_true, if_neg h.comment,
    if_neg h.letter, if_neg h.digit]
  exact if_neg h.quote

theorem operator_symbolic {c : Char} {cs : List Char} (h : c :: cs ∈ operators) : Symbolic c := by
  have hall : ∀ c ∈ operators.filterMap List.head?,
      (c ≠ '\n' ∧ isSpace c = false ∧ c ≠ '#') ∧ ¬ (Text.isLetter c = true ∨ c = '_') ∧
        ¬ Text.isDigit c = true ∧ ¬ (c = '"' ∨ c = '\'') :=
    List.all_iff_forall_prop.mp (by decide)
  obtain ⟨⟨h₁, h₂, h₃⟩, h₄, h₅, h₆⟩ := hall c (List.mem_filterMap.mpr ⟨_, h, rfl⟩)
  exact ⟨⟨h₁, h₂, h₃⟩, h₄, h₅, h₆⟩

theorem delimiter_symbolic {c : Char} (h : c ∈ delimiters) :
    Symbolic c ∧ ∀ op ∈ operators, op.head? ≠ some c := by
  have hall : ∀ c ∈ delimiters,
      ((c ≠ '\n' ∧ isSpace c = false ∧ c ≠ '#') ∧ ¬ (Text.isLetter c = true ∨ c = '_') ∧
        ¬ Text.isDigit c = true ∧ ¬ (c = '"' ∨ c = '\'')) ∧
      ∀ op ∈ operators, op.head? ≠ some c := List.all_iff_forall_prop.mp (by decide)
  obtain ⟨⟨⟨h₁, h₂, h₃⟩, h₄, h₅, h₆⟩, h⟩ := hall c h
  exact ⟨⟨⟨h₁, h₂, h₃⟩, h₄, h₅, h₆⟩, h⟩

/-- The longest operator is found: none goes on but by an equals sign. -/
theorem find_operator {op : List Char} (h : op ∈ operators) (hrest : ∀ c ∈ rest.head?, c ≠ '=') :
    operators.find? (·.isPrefixOf (op ++ rest)) = some op := by
  have hequals : ['='].isPrefixOf rest = false := by
    cases rest with
    | nil => rfl
    | cons c rest => simpa [List.isPrefixOf] using (hrest c rfl).symm
  simp only [operators, List.mem_cons, List.not_mem_nil, or_false] at h
  rcases h with rfl | rfl | rfl | rfl | rfl | rfl | rfl | rfl | rfl | rfl | rfl | rfl | rfl | rfl |
    rfl | rfl | rfl <;>
    simp [operators, List.find?, List.isPrefixOf, hequals]

theorem reaches_operator {op : List Char} (h : op ∈ operators)
    (hrest : ∀ c ∈ rest.head?, c ≠ '=') :
    Reaches ⟨op ++ rest, indents, depth, false, ws⟩
      ⟨rest, indents, depth, false, ws ++ [⟨.operator, String.ofList op⟩]⟩ := by
  have hne : op ≠ [] := by
    rintro rfl
    revert h
    decide
  apply reaches_taken hne
  intro s hl hr
  cases op with
  | nil => exact absurd rfl hne
  | cons c cs =>
    have hfind := find_operator h hrest
    rw [List.cons_append] at hfind hr
    rw [step_eq hl hr, stepInLine_symbolic (operator_symbolic h), hfind]
    simp

theorem reaches_delimiter {c : Char} (h : c ∈ delimiters) :
    Reaches ⟨c :: rest, indents, depth, false, ws⟩
      ⟨rest, indents, depthAfter depth c, false, ws ++ [⟨.delimiter, String.ofList [c]⟩]⟩ := by
  obtain ⟨hs, hop⟩ := delimiter_symbolic h
  apply reaches_step (by simp) (by simp [View.measure])
  intro s hv
  obtain ⟨r, p, i, d, l, t⟩ := s
  cases hv
  have hfind : operators.find? (·.isPrefixOf (c :: rest)) = none := by
    refine List.find?_eq_none.mpr fun op hm hpre => hop op hm ?_
    cases op with
    | nil => exact absurd hm (by decide)
    | cons d ds =>
      rw [List.isPrefixOf_iff_prefix] at hpre
      rw [(List.cons_prefix_cons.mp hpre).1]
      rfl
  have hc : delimiters.contains c = true := by simpa using h
  refine ⟨_, by rw [step_eq rfl rfl, stepInLine_symbolic hs, hfind]; exact if_pos hc, ?_⟩
  simp [Scan.view, Scan.take, Scan.passOver, Token.word]

theorem wordDepth_of_kind {w : Word} (h : w.kind ≠ .delimiter) : wordDepth depth w = depth := by
  unfold wordDepth
  split
  · next hk _ => exact absurd hk h
  · rfl

theorem wordKind_cases (cs : List Char) :
    wordKind cs = .keyword ∨ wordKind cs = .identifier := by
  unfold wordKind
  split
  · exact .inl rfl
  · exact .inr rfl

/-- A word is read in one step when what follows does not go on with it. -/
theorem reaches_word {w : Word} (hw : Lexable w) (he : Ends w rest) :
    Reaches ⟨w.lexeme.toList ++ rest, indents, depth, false, ws⟩
      ⟨rest, indents, wordDepth depth w, false, ws ++ [w]⟩ := by
  cases hw with
  | @name c cs hc hcs =>
    have hrest : ∀ d ∈ rest.head?, Text.isWordChar d = false := by
      unfold Ends at he
      rcases wordKind_cases (c :: cs) with hk | hk <;> simpa only [hk] using he
    have hdepth : wordDepth depth ⟨wordKind (c :: cs), String.ofList (c :: cs)⟩ = depth := by
      apply wordDepth_of_kind
      rcases wordKind_cases (c :: cs) with hk | hk <;> simp [hk]
    rw [hdepth]
    simpa using reaches_name hc hcs hrest
  | digits hcs =>
    rw [wordDepth_of_kind (by simp)]
    simpa using reaches_digits hcs he
  | string h =>
    rw [wordDepth_of_kind (by simp)]
    simpa using reaches_string h
  | operator h =>
    rw [wordDepth_of_kind (by simp)]
    simpa using reaches_operator h he
  | delimiter h => simpa [wordDepth] using reaches_delimiter h

end Lexer

end Offside
