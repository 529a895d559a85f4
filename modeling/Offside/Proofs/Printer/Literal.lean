import Offside.Proofs.Lexer.Step
import Offside.Proofs.Printer.Canonical

/-!
Literals and names as they are spelled: what is written for a number, a String or a name is read as
one word that denotes it.
-/

namespace Offside

open Lexer

theorem lexable_numeral (n : Nat) : Lexable ⟨.integer, Number.numeral n⟩ := by
  rw [Number.numeral_eq]
  exact .digits (Number.natNumeral_digits n)

theorem lexable_name {x : String} (h : IsName x) : Lexable ⟨.identifier, x⟩ := by
  obtain ⟨c, cs, hx, hc, hcs, hk⟩ := h
  have hx' : x = String.ofList (c :: cs) := by rw [← hx, String.ofList_toList]
  have hkind : wordKind (c :: cs) = .identifier := by
    rw [wordKind, ← hx', if_neg (by simpa using hk)]
  rw [hx', ← hkind]
  exact .name hc hcs

theorem lexable_keyword {x : String} (h : x ∈ keywords) : Lexable ⟨.keyword, x⟩ := by
  have hall : ∀ x ∈ keywords, ∃ c cs, x.toList = c :: cs ∧ (Text.isLetter c = true ∨ c = '_') ∧
      ∀ d ∈ cs, Text.isWordChar d = true := by
    intro x hx
    simp only [keywords, List.mem_cons, List.not_mem_nil, or_false] at hx
    rcases hx with rfl | rfl | rfl | rfl | rfl | rfl | rfl | rfl | rfl | rfl | rfl | rfl | rfl |
      rfl | rfl | rfl | rfl | rfl | rfl <;> 
      exact ⟨_, _, rfl, by decide, List.all_iff_forall_prop.mp (by decide)⟩
  obtain ⟨c, cs, hx, hc, hcs⟩ := hall x h
  have hx' : x = String.ofList (c :: cs) := by rw [← hx, String.ofList_toList]
  have hkind : wordKind (c :: cs) = .keyword := by
    rw [wordKind, ← hx', if_pos (by simpa using h)]
  rw [hx', ← hkind]
  exact .name hc hcs

/-! ### Strings -/

open Value in
/-- A character is escaped by a backslash, or stands for itself and needs none. -/
theorem escapedChar_cases (c : Char) :
    (∃ d, escapedChar c = ['\\', d] ∧ escapedValue d = c ∧ d ≠ '\n') ∨
      (escapedChar c = [c] ∧ c ≠ '\\' ∧ c ≠ '"' ∧ c ≠ '\n') := by
  unfold escapedChar
  split_ifs with h₁ h₂ h₃ h₄
  · exact .inl ⟨'\\', rfl, by rw [h₁]; rfl, by decide⟩
  · exact .inl ⟨'"', rfl, by rw [h₂]; rfl, by decide⟩
  · exact .inl ⟨'n', rfl, by rw [h₃]; rfl, by decide⟩
  · exact .inl ⟨'t', rfl, by rw [h₄]; rfl, by decide⟩
  · exact .inr ⟨rfl, h₁, h₂, h₃⟩

theorem unescape_plain {c : Char} (h : c ≠ '\\') (cs : List Char) :
    unescape (c :: cs) = c :: unescape cs := by
  cases cs <;> simp [unescape, h]

theorem unescape_escaped (cs : List Char) : unescape (cs.flatMap Value.escapedChar) = cs := by
  induction cs with
  | nil => rfl
  | cons c cs ih =>
    rw [List.flatMap_cons]
    rcases escapedChar_cases c with ⟨d, hc, hd, -⟩ | ⟨hc, hne, -⟩
    · rw [hc]
      simp [unescape, hd, ih]
    · rw [hc, List.singleton_append, unescape_plain hne, ih]

theorem splitString_plain {c : Char} (h₁ : c ≠ '\\') (h₂ : c ≠ '"') (h₃ : c ≠ '\n')
    (cs : List Char) :
    splitString '"' (c :: cs) =
      (splitString '"' cs).map fun (body, after) => (c :: body, after) := by
  cases cs <;> simp [splitString, h₁, h₂, h₃]

theorem splitString_escaped (cs rest : List Char) :
    splitString '"' (cs.flatMap Value.escapedChar ++ '"' :: rest) =
      some (cs.flatMap Value.escapedChar ++ ['"'], rest) := by
  induction cs with
  | nil =>
    cases rest <;> simp [splitString]
  | cons c cs ih =>
    rw [List.flatMap_cons]
    rcases escapedChar_cases c with ⟨d, hc, -, hd⟩ | ⟨hc, h₁, h₂, h₃⟩
    · rw [hc]
      simp [splitString, hd, ih]
    · rw [hc, List.append_assoc, List.singleton_append, splitString_plain h₁ h₂ h₃, ih]
      simp

theorem lexable_string (s : String) : Lexable ⟨.string, Value.quotedString s⟩ := by
  have h : Lexable ⟨.string,
      String.ofList ('"' :: (s.toList.flatMap Value.escapedChar ++ ['"']))⟩ :=
    .string fun rest => by
      rw [List.append_assoc]
      exact splitString_escaped s.toList rest
  exact h

theorem stringValue_quoted (s : String) : stringValue (Value.quotedString s) = s := by
  simp [stringValue, Value.quotedString, unescape_escaped]

end Offside

/-!
Spacing of printed text. Whatever the printer puts after a word ends it, and brackets are closed in
the order in which they are opened.
-/

namespace Offside.Printer

open Lexer

/-- What may stand after an expression. -/
def edges : List Char := [' ', '\n', '(', ')', '[', ']', '}', ',', ':']

def Edge (rest : List Char) : Prop := ∀ c ∈ rest.head?, c ∈ edges

theorem edge_cons {c : Char} {rest : List Char} (h : c ∈ edges) : Edge (c :: rest) := by
  intro d hd
  cases hd
  exact h

theorem edge_ends {rest : List Char} (h : Edge rest) (w : Word) : Ends w rest := by
  have hall : ∀ c ∈ edges, Text.isWordChar c = false ∧ (Text.isDigit c = false ∧ c ≠ '.') ∧
      c ≠ '=' := List.all_iff_forall_prop.mp (by decide)
  unfold Ends
  split
  · intro c hc
    exact (hall c (h c hc)).1
  · intro c hc
    exact (hall c (h c hc)).1
  · intro c hc
    exact (hall c (h c hc)).2.1
  · intro c hc
    exact (hall c (h c hc)).2.2
  · trivial

/-- Pieces that any edge ends and that close what they open. -/
structure Tidy (ps : List Piece) : Prop where
  spaced : ∀ rest, Edge rest → Spaced ps rest
  balanced : ∀ depth, (wordsOf ps).foldl wordDepth depth = depth

def Edged (ps : List Piece) : Prop := ∀ rest, Edge (spell ps ++ rest)

variable {ps qs : List Piece} {w : Word}

theorem tidy_nil : Tidy [] := ⟨fun _ _ => trivial, fun _ => rfl⟩

theorem tidy_word (hw : Lexable w) (hk : w.kind ≠ .delimiter) : Tidy [.word w] :=
  ⟨fun _ hr => ⟨hw, edge_ends hr w, trivial⟩, fun _ => wordDepth_of_kind hk⟩

theorem tidy_append (hp : Tidy ps) (hq : Tidy qs) (he : Edged qs) : Tidy (ps ++ qs) := by
  refine ⟨fun rest hr => spaced_append.mpr ⟨hp.spaced _ (he rest), hq.spaced rest hr⟩,
    ?_⟩
  intro depth
  rw [wordsOf_append, List.foldl_append, hp.balanced, hq.balanced]

theorem tidy_cons {p : Piece} (hp : Tidy [p]) (hq : Tidy qs) (he : Edged qs) : Tidy (p :: qs) :=
  tidy_append hp hq he

theorem tidy_blank (h : Tidy ps) : Tidy (.blank :: ps) := ⟨h.spaced, h.balanced⟩

theorem edged_blank (ps : List Piece) : Edged (.blank :: ps) :=
  fun _ => edge_cons (c := ' ') (by decide)

theorem tidy_mark {c : Char} (hc : c ∈ [',', ':', '.']) (h : Tidy ps) :
    Tidy (delimiter (String.ofList [c]) :: ps) := by
  have hall : ∀ c ∈ [',', ':', '.'], c ∈ delimiters ∧ ¬ openBrackets.contains c = true ∧
      ¬ closeBrackets.contains c = true := List.all_iff_forall_prop.mp (by decide)
  obtain ⟨hd, ho, hcl⟩ := hall c hc
  refine ⟨fun rest hr => ⟨.delimiter hd, trivial, h.spaced rest hr⟩, ?_⟩
  intro depth
  have hdepth : wordDepth depth ⟨.delimiter, String.ofList [c]⟩ = depth := by
    simp only [wordDepth, String.toList_ofList, depthAfter]
    rw [if_neg ho, if_neg hcl]
  change (wordsOf ps).foldl wordDepth (wordDepth depth ⟨.delimiter, String.ofList [c]⟩) = depth
  rw [hdepth, h.balanced]

theorem tidy_comma (h : Tidy ps) : Tidy (delimiter "," :: ps) := tidy_mark (c := ',') (by decide) h

theorem tidy_colon (h : Tidy ps) : Tidy (delimiter ":" :: ps) := tidy_mark (c := ':') (by decide) h

theorem tidy_dot (h : Tidy ps) : Tidy (delimiter "." :: ps) := tidy_mark (c := '.') (by decide) h

theorem edged_comma (ps : List Piece) : Edged (delimiter "," :: ps) :=
  fun _ => edge_cons (c := ',') (by decide)

theorem edged_colon (ps : List Piece) : Edged (delimiter ":" :: ps) :=
  fun _ => edge_cons (c := ':') (by decide)

def brackets : List (Char × Char) := [('(', ')'), ('[', ']'), ('{', '}')]

theorem brackets_depth {o c : Char} (h : (o, c) ∈ brackets) :
    o ∈ delimiters ∧ c ∈ delimiters ∧ c ∈ edges ∧
      ∀ depth, depthAfter (depthAfter depth o) c = depth := by
  have hall : ∀ b ∈ brackets, b.1 ∈ delimiters ∧ b.2 ∈ delimiters ∧ b.2 ∈ edges ∧
      openBrackets.contains b.1 = true ∧ openBrackets.contains b.2 = false ∧
      closeBrackets.contains b.2 = true := by decide
  obtain ⟨h₁, h₂, h₃, h₄, h₅, h₆⟩ := hall _ h
  refine ⟨h₁, h₂, h₃, ?_⟩
  intro depth
  simp only [depthAfter, h₄, h₅, h₆, if_true, Bool.false_eq_true, if_false, Nat.add_sub_cancel]

theorem bracketed_spaced {o c : Char} (hb : (o, c) ∈ brackets) (h : Tidy ps) (rest : List Char) :
    Spaced (bracketed (String.ofList [o]) (String.ofList [c]) ps) rest := by
  obtain ⟨ho, hc, he, -⟩ := brackets_depth hb
  refine ⟨.delimiter ho, trivial,
    spaced_append.mpr ⟨h.spaced _ ?_, .delimiter hc, trivial, trivial⟩⟩
  have hspell : spell [delimiter (String.ofList [c])] = [c] := by
    simp [spell, delimiter, Piece.text]
  rw [hspell]
  exact edge_cons he

theorem tidy_bracketed {o c : Char} (hb : (o, c) ∈ brackets) (h : Tidy ps) :
    Tidy (bracketed (String.ofList [o]) (String.ofList [c]) ps) := by
  refine ⟨fun rest _ => bracketed_spaced hb h rest, ?_⟩
  intro depth
  obtain ⟨-, -, -, hd⟩ := brackets_depth hb
  change (wordsOf (ps ++ [delimiter (String.ofList [c])])).foldl wordDepth
    (wordDepth depth ⟨.delimiter, String.ofList [o]⟩) = depth
  rw [wordsOf_append, List.foldl_append, h.balanced]
  simp only [delimiter, wordsOf, List.foldl_cons, List.foldl_nil, wordDepth, String.toList_ofList]
  exact hd depth

theorem tidy_parens (h : Tidy ps) : Tidy (parens ps) :=
  tidy_bracketed (o := '(') (c := ')') (by decide) h

theorem edged_parens (ps : List Piece) : Edged (parens ps) :=
  fun _ => edge_cons (c := '(') (by decide)

theorem tidy_separated {pss : List (List Piece)} (h : ∀ ps ∈ pss, Tidy ps) :
    Tidy (separated pss) := by
  induction pss with
  | nil => exact tidy_nil
  | cons ps pss ih =>
    have hp := h ps List.mem_cons_self
    have hrest := ih fun qs hq => h qs (List.mem_cons_of_mem ps hq)
    cases pss with
    | nil => exact hp
    | cons qs pss => exact tidy_append hp (tidy_comma (tidy_blank hrest)) (edged_comma _)

theorem tidy_entry (hp : Tidy ps) (hq : Tidy qs) : Tidy (entry ps qs) :=
  tidy_append hp (tidy_colon (tidy_blank hq)) (edged_colon _)

theorem clean_line (h : Tidy ps) (hs : ∃ w qs, ps = .word w :: qs) : Clean ps :=
  ⟨hs, fun _ => h.spaced _ (edge_cons (by decide)), h.balanced 0⟩

end Offside.Printer
