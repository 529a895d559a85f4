import Offside.Proofs.Digit
import Offside.Proofs.Lexer.Seam
import Offside.Proofs.Reference.Alike

/-!
The words of the two front ends. The scanner of the grammar looks among the terminals that are legal
where it stands, and the lexer at the text alone. If the word that the lexer finds can be converted
and its terminal is legal, the scanner finds the same.
-/

namespace Offside

open Lexer

/-- The class of a word. -/
def Word.terminal (w : Word) : Reference.Terminal := Token.terminal ⟨w.kind, w.lexeme, .start⟩

/-- Any word but a number that cannot be converted. -/
def Word.Legible (w : Word) : Prop :=
  (w.kind = .integer → Number.readInteger? w.lexeme.toList ≠ none) ∧
    (w.kind = .float → Number.readFloat? w.lexeme.toList ≠ none)

theorem Token.word_terminal (t : Token) : t.word.terminal = t.terminal := rfl

theorem Token.plain_terminal (t : Token) : t.plain.terminal = t.terminal := by
  by_cases h : t.kind = .newline
  · have hplain : t.plain = ⟨.newline, ""⟩ := if_pos h
    rw [hplain, Token.terminal, h]
    rfl
  · rw [Token.plain_eq h, word_terminal]

theorem Token.plain_legible {t : Token} (h : ∀ f, Parser.atom? t ≠ some (.error f)) :
    t.plain.Legible := by
  constructor <;> intro hk <;> rw [Token.plain_kind] at hk
  · intro hnone
    rw [Token.plain_eq (by simp [hk])] at hnone
    have hread : Number.readInteger? t.lexeme.toList = none := hnone
    exact h (.invalidInteger t.lexeme) (by simp [Parser.atom?, hk, hread])
  · intro hnone
    rw [Token.plain_eq (by simp [hk])] at hnone
    have hread : Number.readFloat? t.lexeme.toList = none := hnone
    exact h (.invalidFloat t.lexeme) (by simp [Parser.atom?, hk, hread])

namespace Reference

variable {c : Char} {cs rest taken : List Char} {kind : TokenKind} {depth : Nat} {x : Fragment}
  {legal : Terminal → Bool}

/-! ### What begins a word -/

/-- No digit, no letter and no quote. -/
structure Marking (c : Char) : Prop where
  decimal : Text.isDecimal c = false
  word : Text.isWordChar c = false
  quote : ¬ (c = '"' ∨ c = '\'')

theorem integerText_none (h : Text.isDecimal c = false) : integerText? (c :: rest) = none := by
  simp [integerText?, h]

theorem floatText_none (h : Text.isDecimal c = false) : floatText? (c :: rest) = none := by
  simp [floatText?, integerText_none h]

theorem nameText_none (h : Text.isWordChar c = true → Text.isDecimal c = true) :
    nameText? (c :: rest) = none := by
  refine if_neg ?_
  rw [Bool.and_eq_true, Bool.not_eq_true']
  rintro ⟨hword, hdec⟩
  rw [h hword] at hdec
  cases hdec

theorem stringText_none (h : ¬ (c = '"' ∨ c = '\'')) : stringText? (c :: rest) = none := if_neg h

/-- Of texts that are spelled out, the one that is found begins what is left. -/
theorem spelled_found {texts : List (Terminal × String)} {m : Terminal × String}
    (h : spelled? legal texts cs = some m) :
    m ∈ texts ∧ legal m.1 = true ∧ m.2.toList <+: cs := by
  have hfound := List.find?_some h
  rw [Bool.and_eq_true, List.isPrefixOf_iff_prefix] at hfound
  exact ⟨List.mem_of_find?_eq_some h, hfound⟩

theorem spelled_exists {texts : List (Terminal × String)} {m : Terminal × String} (h : m ∈ texts)
    (hlegal : legal m.1 = true) (hcs : m.2.toList <+: cs) :
    ∃ m', spelled? legal texts cs = some m' := by
  refine Option.isSome_iff_exists.mp (List.find?_isSome.mpr ⟨m, h, ?_⟩)
  rw [Bool.and_eq_true, List.isPrefixOf_iff_prefix]
  exact ⟨hlegal, hcs⟩

/-! ### Names and keywords -/

theorem spelledWords_keywords (word : String) : word ∈ spelledWords ↔ word ∈ keywords := by
  have hforth : ∀ w ∈ spelledWords, w ∈ keywords := by decide
  have hback : ∀ w ∈ keywords, w ∈ spelledWords := by decide
  exact ⟨hforth word, hback word⟩

theorem prefix_takeWhile {p : Char → Bool} {w cs : List Char} (h : w <+: cs)
    (hw : ∀ c ∈ w, p c = true) : w <+: cs.takeWhile p := by
  obtain ⟨tail, rfl⟩ := h
  rw [List.takeWhile_append_of_pos hw]
  exact List.prefix_append w _

/-- No keyword goes on from another. -/
theorem keyword_whole {v w : String} (hv : v ∈ keywords) (hw : w ∈ keywords)
    (h : w.toList <+: v.toList) : v = w := by
  have hall : (keywords.all fun v => keywords.all fun w =>
      !w.toList.isPrefixOf v.toList || v == w) = true := by decide
  have hpair := List.all_eq_true.mp (List.all_eq_true.mp hall v hv) w hw
  rw [List.isPrefixOf_iff_prefix.mpr h] at hpair
  simpa using hpair

theorem keyword_letters {w : String} (hw : w ∈ keywords) :
    ∀ c ∈ w.toList, Text.isWordChar c = true := by
  have hall : (keywords.all fun w => w.toList.all Text.isWordChar) = true := by decide
  exact List.all_eq_true.mp (List.all_eq_true.mp hall w hw)

/-- The keyword of which all letters stand here is the one that is found. -/
theorem keyword_found {word : List Char} (hkey : String.ofList word ∈ keywords)
    (hlegal : legal (.keyword (String.ofList word)) = true)
    (hword : word = cs.takeWhile Text.isWordChar) :
    spelled? legal (spelledWords.map fun w => (.keyword w, w)) cs =
      some (.keyword (String.ofList word), String.ofList word) := by
  have hmem : (Terminal.keyword (String.ofList word), String.ofList word) ∈
      spelledWords.map fun w => (Terminal.keyword w, w) :=
    List.mem_map.mpr ⟨_, (spelledWords_keywords _).mpr hkey, rfl⟩
  have hprefix : (String.ofList word).toList <+: cs := by
    rw [String.toList_ofList, hword]
    exact List.takeWhile_prefix _
  obtain ⟨m, hm⟩ := spelled_exists hmem hlegal hprefix
  obtain ⟨hin, -, hbegins⟩ := spelled_found hm
  obtain ⟨w, hw, rfl⟩ := List.mem_map.mp hin
  have hwkey := (spelledWords_keywords w).mp hw
  have hshort := prefix_takeWhile hbegins (keyword_letters hwkey)
  rw [← hword, ← String.toList_ofList (l := word)] at hshort
  rw [hm, keyword_whole hkey hwkey hshort]

theorem letter_plain (hc : Text.isLetter c = true ∨ c = '_') :
    Text.isWordChar c = true ∧ Text.isDecimal c = false ∧ ¬ (c = '"' ∨ c = '\'') := by
  have hword : Text.isWordChar c = true := by
    rcases hc with hc | rfl
    · exact Scan.letter_isWordChar hc
    · rfl
  refine ⟨hword, ?_, ?_⟩
  · rcases hc with hc | rfl
    · exact Number.letter_not_decimal hc
    · decide
  · rintro (rfl | rfl) <;> revert hword <;> decide

theorem scanWord_name (hc : Text.isLetter c = true ∨ c = '_')
    (hlegal : legal (Word.terminal ⟨wordKind (c :: rest.takeWhile Text.isWordChar),
      String.ofList (c :: rest.takeWhile Text.isWordChar)⟩) = true) :
    scanWord? legal (c :: rest) = some (wordKind (c :: rest.takeWhile Text.isWordChar),
      c :: rest.takeWhile Text.isWordChar) := by
  obtain ⟨hword, hdec, hq⟩ := letter_plain hc
  have hname : nameText? (c :: rest) = some (c :: rest.takeWhile Text.isWordChar) := by
    simp [nameText?, hword, hdec]
  have htext : c :: rest.takeWhile Text.isWordChar = (c :: rest).takeWhile Text.isWordChar := by
    rw [List.takeWhile_cons, if_pos hword]
  generalize c :: rest.takeWhile Text.isWordChar = word at *
  unfold wordKind at hlegal ⊢
  simp only [List.contains_eq_mem, decide_eq_true_eq] at hlegal ⊢
  unfold scanWord?
  simp only [floatText_none hdec, integerText_none hdec, stringText_none hq, hname, Option.map_none,
    ite_self]
  by_cases hkey : String.ofList word ∈ keywords
  · rw [if_pos hkey] at hlegal ⊢
    have hlegal : legal (.keyword (String.ofList word)) = true := hlegal
    have hcontains : spelledWords.contains (String.ofList word) = true := by
      simpa using (spelledWords_keywords _).mpr hkey
    by_cases hn : legal .name = true
    · simp [hn, hlegal, (spelledWords_keywords _).mpr hkey]
    · simp [hn, keyword_found hkey hlegal htext]
  · rw [if_neg hkey] at hlegal ⊢
    have hn : legal .name = true := hlegal
    have hnot : String.ofList word ∉ spelledWords := fun h =>
      hkey ((spelledWords_keywords _).mp h)
    simp [hn, hnot]

/-! ### Numbers and strings -/

theorem takeWhile_of_imp {p q : Char → Bool} (hpq : ∀ c, p c = true → q c = true)
    {cs : List Char} (h : ∀ c ∈ cs.takeWhile q, p c = true) :
    cs.takeWhile p = cs.takeWhile q := by
  induction cs with
  | nil => rfl
  | cons c cs ih =>
    rw [List.takeWhile_cons] at h
    cases hq : q c with
    | true =>
      rw [hq, if_pos rfl] at h
      have hp := h c List.mem_cons_self
      have htake := ih fun d hd => h d (List.mem_cons_of_mem c hd)
      simp [hp, hq, htake]
    | false =>
      have hp : p c = false := by
        by_contra hp
        rw [hpq c (by simpa using hp)] at hq
        cases hq
      simp [hp, hq]

/-- The digits of a number that can be converted are decimal. -/
theorem legible_decimal {number after : List Char} (hc : Text.isDigit c = true)
    (h : splitNumber (c :: rest) = (kind, number, after))
    (hl : Word.Legible ⟨kind, String.ofList number⟩) {d : Char} (hd : d ∈ number)
    (hdigit : Text.isDigit d = true) : Text.isDecimal d = true := by
  by_contra hdec
  have hdec : Text.isDecimal d = false := by simpa using hdec
  obtain ⟨-, hspell⟩ := splitNumber_spells hc h
  have hkind := splitNumber_kind (c :: rest)
  rw [h] at hkind
  rcases hkind with hk | hk <;> dsimp only at hk <;> subst hk
  · have hread : Number.readInteger? (String.ofList number).toList ≠ none := hl.1 rfl
    rw [String.toList_ofList] at hread
    exact hread (Number.readInteger_other hspell.2 hd hdec)
  · have hread : Number.readFloat? (String.ofList number).toList ≠ none := hl.2 rfl
    rw [String.toList_ofList] at hread
    obtain ⟨ds, fs, rfl, hds, hfs⟩ := hspell
    have hmem : d ∈ ds ++ fs := by
      rw [List.mem_append, List.mem_cons] at hd
      rcases hd with h | rfl | h
      · exact List.mem_append_left fs h
      · exact absurd rfl (Number.digit_ne hdigit '.' (by simp))
      · exact List.mem_append_right ds h
    refine hread (Number.readFloat_other (fun e he => ?_) hmem hdec)
    exact (List.mem_append.mp he).elim (hds.2 e) (hfs.2 e)

theorem integerText_digits (hc : Text.isDigit c = true)
    (h : ∀ d ∈ (c :: rest).takeWhile Text.isDigit, Text.isDecimal d = true) :
    integerText? (c :: rest) = some ((c :: rest).takeWhile Text.isDigit) := by
  have hsame := takeWhile_of_imp (p := Text.isDecimal) (fun _ => Number.decimal_isDigit) h
  have hne : (c :: rest).takeWhile Text.isDigit ≠ [] := by simp [hc]
  unfold integerText?
  rw [hsame]
  exact if_neg (by simpa using hne)

/-- What follows the digits of a number. -/
theorem drop_digits (cs : List Char) :
    cs.drop (cs.takeWhile Text.isDigit).length = cs.dropWhile Text.isDigit := by
  have hsplit : cs.takeWhile Text.isDigit ++ cs.dropWhile Text.isDigit = cs :=
    List.takeWhile_append_dropWhile
  generalize cs.takeWhile Text.isDigit = whole at hsplit
  generalize cs.dropWhile Text.isDigit = more at hsplit
  rw [← hsplit, List.drop_left]

theorem floatText_point {more : List Char} (hc : Text.isDigit c = true)
    (h : ∀ d ∈ (c :: rest).takeWhile Text.isDigit, Text.isDecimal d = true)
    (hmore : (c :: rest).dropWhile Text.isDigit = '.' :: more) : floatText? (c :: rest) =
      (integerText? more).map ((c :: rest).takeWhile Text.isDigit ++ '.' :: ·) := by
  unfold floatText?
  rw [integerText_digits hc h, Option.bind_eq_bind, Option.bind_some, drop_digits, hmore]
  change (integerText? more).bind (fun places => some (_ ++ '.' :: places)) = _
  cases integerText? more <;> rfl

theorem floatText_whole (hc : Text.isDigit c = true)
    (h : ∀ d ∈ (c :: rest).takeWhile Text.isDigit, Text.isDecimal d = true)
    (hmore : ∀ more, (c :: rest).dropWhile Text.isDigit ≠ '.' :: more) :
    floatText? (c :: rest) = none := by
  unfold floatText?
  rw [integerText_digits hc h, Option.bind_eq_bind, Option.bind_some, drop_digits]
  split
  · next more heq => exact absurd heq (hmore more)
  · rfl

/-- The scanner's number is the lexer's if its digits are decimal. -/
theorem number_texts {number after : List Char} (hc : Text.isDigit c = true)
    (h : splitNumber (c :: rest) = (kind, number, after))
    (hdec : ∀ d ∈ number, Text.isDigit d = true → Text.isDecimal d = true) :
    (kind = .integer ∧ floatText? (c :: rest) = none ∧ integerText? (c :: rest) = some number) ∨
      kind = .float ∧ floatText? (c :: rest) = some number := by
  have hall (ds : List Char) (hds : ∀ d ∈ ds.takeWhile Text.isDigit, d ∈ number) :
      ∀ d ∈ ds.takeWhile Text.isDigit, Text.isDecimal d = true := fun d hd =>
    hdec d (hds d hd) (List.mem_takeWhile_imp hd)
  unfold splitNumber at h
  dsimp only at h
  split at h
  · next d more hmore =>
    split at h
    · next hd =>
      cases h
      have hplaces : (d :: more).takeWhile Text.isDigit = d :: more.takeWhile Text.isDigit := by
        rw [List.takeWhile_cons, if_pos hd]
      have hwhole := hall (c :: rest) fun d hd => List.mem_append_left _ hd
      have hfraction := hall (d :: more) fun e he =>
        List.mem_append_right _ (List.mem_cons_of_mem _ (hplaces ▸ he))
      right
      refine ⟨rfl, ?_⟩
      rw [floatText_point hc hwhole hmore, integerText_digits hd hfraction, hplaces]
      rfl
    · next hd =>
      cases h
      have hwhole := hall (c :: rest) fun _ => id
      have hnot : Text.isDecimal d = false := by
        by_contra hdecimal
        exact hd (Number.decimal_isDigit (by simpa using hdecimal))
      left
      refine ⟨rfl, ?_, integerText_digits hc hwhole⟩
      rw [floatText_point hc hwhole hmore, integerText_none hnot]
      rfl
  · next hmore =>
    cases h
    have hwhole := hall (c :: rest) fun _ => id
    left
    refine ⟨rfl, ?_, integerText_digits hc hwhole⟩
    by_cases hpoint : ∃ tail, (c :: rest).dropWhile Text.isDigit = '.' :: tail
    · obtain ⟨tail, htail⟩ := hpoint
      rw [floatText_point hc hwhole htail]
      cases tail with
      | nil => rfl
      | cons d tail => exact absurd htail (hmore d tail)
    · exact floatText_whole hc hwhole (not_exists.mp hpoint)

theorem splitNumber_head {number after : List Char} (hc : Text.isDigit c = true)
    (h : splitNumber (c :: rest) = (kind, number, after)) : c ∈ number := by
  obtain ⟨hsplit, hspell⟩ := splitNumber_spells hc h
  cases number with
  | nil =>
    have hkind := splitNumber_kind (c :: rest)
    rw [h] at hkind
    rcases hkind with hk | hk <;> dsimp only at hk <;> subst hk
    · exact absurd rfl hspell.1
    · obtain ⟨ds, fs, hnil, -⟩ := hspell
      exact absurd hnil (by simp)
  | cons d number =>
    rw [List.cons_append] at hsplit
    rw [(List.cons.inj hsplit).1]
    exact List.mem_cons_self

theorem scanWord_number {number after : List Char} (hc : Text.isDigit c = true)
    (h : splitNumber (c :: rest) = (kind, number, after))
    (hl : Word.Legible ⟨kind, String.ofList number⟩)
    (hlegal : legal (Word.terminal ⟨kind, String.ofList number⟩) = true) :
    scanWord? legal (c :: rest) = some (kind, number) := by
  have hdec {d : Char} := legible_decimal (d := d) hc h hl
  have hhead : Text.isDecimal c = true := hdec (splitNumber_head hc h) hc
  have hname : nameText? (c :: rest) = none := nameText_none fun _ => hhead
  unfold scanWord?
  rcases number_texts hc h (fun _ => hdec) with ⟨rfl, hfloat, hinteger⟩ | ⟨rfl, hfloat⟩
  · have hlegal : legal .integer = true := hlegal
    simp [hfloat, hname, hinteger, hlegal]
  · have hlegal : legal .float = true := hlegal
    simp [hfloat, hlegal]

theorem scanWord_string {body after : List Char} (hq : c = '"' ∨ c = '\'')
    (h : splitString c rest = some (body, after)) (hlegal : legal .string = true) :
    scanWord? legal (c :: rest) = some (.string, c :: body) := by
  have hdec : Text.isDecimal c = false := by
    rcases hq with rfl | rfl <;> decide
  have hword : Text.isWordChar c = false := by
    rcases hq with rfl | rfl <;> decide
  have htext : stringText? (c :: rest) = some (c :: body) := by
    rw [stringText?, if_pos hq, h]
    rfl
  unfold scanWord?
  simp [floatText_none hdec, integerText_none hdec, nameText_none (c := c) (by simp [hword]), htext,
    hlegal]

/-! ### Marks -/

/-- In a list whose longer texts come first, the longest is found. -/
theorem find_longest {α : Type} {p : α → Bool} (f : α → Nat) {xs : List α} {a : α}
    (hsorted : xs.Pairwise fun a b => f b ≤ f a) (h : xs.find? p = some a) :
    ∀ b ∈ xs, p b = true → f b ≤ f a := by
  induction xs with
  | nil => cases h
  | cons x xs ih =>
    rw [List.pairwise_cons] at hsorted
    rw [List.find?_cons] at h
    split at h
    · cases h
      exact List.forall_mem_cons.mpr ⟨fun _ => Nat.le_refl _, fun b hb _ => hsorted.1 b hb⟩
    · next hx =>
      refine List.forall_mem_cons.mpr ⟨fun hp => ?_, ih hsorted.2 h⟩
      rw [hp] at hx
      cases hx

theorem operators_sorted : operators.Pairwise fun a b => b.length ≤ a.length := by decide

theorem spelledMarks_sorted :
    spelledMarks.Pairwise fun a b => b.2.toList.length ≤ a.2.toList.length := by
  decide

theorem operator_spelled : ∀ op ∈ operators,
    (Terminal.ofOperator (String.ofList op), String.ofList op) ∈ spelledMarks := by
  decide

theorem delimiter_spelled {d : Char} (hd : d ∈ delimiters) :
    (Terminal.delimiter (String.singleton d), String.singleton d) ∈ spelledMarks :=
  List.mem_append_right _ (List.mem_map_of_mem hd)

/-- What is spelled out is an operator or a delimiter. -/
theorem mark_known {m : Terminal × String} (h : m ∈ spelledMarks) :
    m.2.toList ∈ operators ∧ m.1.markKind = .operator ∨
      ∃ d ∈ delimiters, m = (.delimiter (String.singleton d), String.singleton d) := by
  rcases List.mem_append.mp h with hmem | hmem
  · have hall : ∀ m ∈ Terminal.augmentedTexts.map (Terminal.augmented, ·) ++
        Terminal.comparisonTexts.map (Terminal.comparison, ·) ++
        [(.plus, "+"), (.minus, "-"), (.star, "*"), (.slash, "/"), (.percent, "%"),
         (.operator "=", "=")], m.2.toList ∈ operators ∧ m.1.markKind = .operator := by decide
    exact .inl (hall m hmem)
  · obtain ⟨d, hd, rfl⟩ := List.mem_map.mp hmem
    exact .inr ⟨d, hd, rfl⟩

theorem symbolic_marking (hc : Symbolic c) (hword : Text.isWordChar c = false) : Marking c := by
  refine ⟨?_, hword, hc.quote⟩
  by_contra hdec
  exact hc.digit (Number.decimal_isDigit (by simpa using hdec))

/-- What begins an operator or a delimiter is no part of a name. -/
theorem operator_marking (h : c :: cs ∈ operators) : Marking c := by
  have hoperators : (operators.all fun op => op.head?.all (!Text.isWordChar ·)) = true := by decide
  exact symbolic_marking (operator_symbolic h) (by simpa using List.all_eq_true.mp hoperators _ h)

theorem delimiter_marking (h : c ∈ delimiters) : Marking c := by
  have hdelimiters : (delimiters.all (!Text.isWordChar ·)) = true := by decide
  exact symbolic_marking (delimiter_symbolic h).1
    (by simpa using List.all_eq_true.mp hdelimiters c h)

/-- Every keyword begins with a letter. -/
theorem keyword_starts (hword : Text.isWordChar c = false) :
    spelled? legal (spelledWords.map fun w => (.keyword w, w)) (c :: rest) = none := by
  refine Option.eq_none_iff_forall_ne_some.mpr fun m h => ?_
  obtain ⟨hmem, -, hprefix⟩ := spelled_found h
  obtain ⟨w, hw, rfl⟩ := List.mem_map.mp hmem
  have hkey := (spelledWords_keywords w).mp hw
  have hne : ∀ w ∈ keywords, w.toList ≠ [] := by decide
  obtain ⟨d, ds, htext⟩ := List.exists_cons_of_ne_nil (hne w hkey)
  rw [htext] at hprefix
  obtain rfl := (List.cons_prefix_cons.mp hprefix).1
  have hletter := keyword_letters hkey d (htext ▸ List.mem_cons_self)
  rw [hword] at hletter
  cases hletter

theorem scanWord_mark (hc : Marking c) : scanWord? legal (c :: rest) =
    (spelled? legal spelledMarks (c :: rest)).map fun m => (m.1.markKind, m.2.toList) := by
  unfold scanWord?
  simp [floatText_none hc.decimal, integerText_none hc.decimal,
    nameText_none (c := c) (by simp [hc.word]), stringText_none hc.quote,
    keyword_starts hc.word]

theorem scanWord_operator {op : List Char}
    (hop : operators.find? (·.isPrefixOf (c :: rest)) = some op)
    (hlegal : legal (.ofOperator (String.ofList op)) = true) :
    scanWord? legal (c :: rest) = some (.operator, op) := by
  have hmem := List.mem_of_find?_eq_some hop
  have hprefix : op <+: c :: rest := List.isPrefixOf_iff_prefix.mp
    (List.find?_some (p := fun op : List Char => op.isPrefixOf (c :: rest)) hop)
  obtain ⟨ds, rfl⟩ : ∃ ds, op = c :: ds := by
    cases op with
    | nil => exact absurd hmem (by decide)
    | cons d ds => exact ⟨ds, by rw [(List.cons_prefix_cons.mp hprefix).1]⟩
  have hprefix' : (String.ofList (c :: ds)).toList <+: c :: rest := by rwa [String.toList_ofList]
  obtain ⟨m, hm⟩ := spelled_exists (operator_spelled _ hmem) hlegal hprefix'
  obtain ⟨hmem', -, hbegins⟩ := spelled_found hm
  rw [scanWord_mark (operator_marking hmem), hm]
  rcases mark_known hmem' with ⟨hop', hkind⟩ | ⟨d, hd, rfl⟩
  · have hlong := find_longest List.length operators_sorted hop _ hop'
      (List.isPrefixOf_iff_prefix.mpr hbegins)
    have hmark := Bool.and_eq_true_iff.mpr ⟨hlegal, List.isPrefixOf_iff_prefix.mpr hprefix'⟩
    have hlong' := find_longest (fun m => m.2.toList.length) spelledMarks_sorted hm _
      (operator_spelled _ hmem) hmark
    rw [String.toList_ofList] at hlong'
    have hsame := List.prefix_of_prefix_length_le hprefix hbegins hlong'
      |>.eq_of_length (Nat.le_antisymm hlong' hlong)
    rw [Option.map_some, hkind, ← hsame]
  · rw [String.toList_singleton] at hbegins
    obtain rfl := (List.cons_prefix_cons.mp hbegins).1
    exact absurd rfl ((delimiter_symbolic hd).2 _ hmem)

/-- The scanner finds a delimiter or, where that is not legal, nothing. -/
theorem scanWord_delimiter (hd : c ∈ delimiters) : scanWord? legal (c :: rest) =
    if legal (.delimiter (String.singleton c)) = true then some (.delimiter, [c]) else none := by
  have hone : (String.singleton c).toList <+: c :: rest := by
    rw [String.toList_singleton]
    exact ⟨rest, rfl⟩
  have hfound {m : Terminal × String} (h : spelled? legal spelledMarks (c :: rest) = some m) :
      m = (.delimiter (String.singleton c), String.singleton c) := by
    obtain ⟨hmem, -, hbegins⟩ := spelled_found h
    rcases mark_known hmem with ⟨hop, -⟩ | ⟨d, -, rfl⟩
    · cases htext : m.2.toList with
      | nil =>
        rw [htext] at hop
        exact absurd hop (by decide)
      | cons e es =>
        rw [htext] at hop hbegins
        obtain rfl := (List.cons_prefix_cons.mp hbegins).1
        exact absurd rfl ((delimiter_symbolic hd).2 _ hop)
    · rw [String.toList_singleton] at hbegins
      rw [(List.cons_prefix_cons.mp hbegins).1]
  rw [scanWord_mark (delimiter_marking hd)]
  split_ifs with hlegal
  · obtain ⟨m, hm⟩ := spelled_exists (delimiter_spelled hd) hlegal hone
    rw [hm, hfound hm, Option.map_some, String.toList_singleton]
    rfl
  · rw [Option.map_eq_none_iff, Option.eq_none_iff_forall_ne_some]
    intro m hm
    obtain rfl := hfound hm
    exact hlegal (spelled_found hm).2.1

/-! ### Words -/

/-- Where no blank stands, a token is read. -/
theorem fragment_kind (hc : Inner c) (h : fragment depth c rest = .ok x) :
    ∃ k, x.kind = some k := by
  unfold fragment at h
  rw [hc.space, if_neg Bool.false_ne_true, if_neg hc.comment] at h
  split at h
  · cases h
    exact ⟨_, rfl⟩
  split at h
  · cases h
    exact ⟨_, rfl⟩
  split at h
  · split at h
    · cases h
      exact ⟨_, rfl⟩
    · cases h
  split at h
  · cases h
    exact ⟨_, rfl⟩
  · split at h
    · cases h
      exact ⟨_, rfl⟩
    · cases h

/-- The word of the lexer is the scanner's where its terminal is legal, and a delimiter is that or
none. -/
theorem scanWord_fragment (legal : Terminal → Bool) (hc : Inner c)
    (h : fragment depth c rest = .ok x)
    (hk : x.kind = some kind) :
    (Word.Legible ⟨kind, String.ofList x.taken⟩ →
      legal (Word.terminal ⟨kind, String.ofList x.taken⟩) = true →
      scanWord? legal (c :: rest) = some (kind, x.taken)) ∧
    (kind = .delimiter → scanWord? legal (c :: rest) = some (kind, x.taken) ∨
      scanWord? legal (c :: rest) = none) := by
  unfold fragment at h
  rw [hc.space, if_neg Bool.false_ne_true, if_neg hc.comment] at h
  split at h
  · next hname =>
    cases h
    cases hk
    refine ⟨fun _ hlegal => scanWord_name hname hlegal, fun hd => ?_⟩
    rcases wordKind_cases (c :: rest.takeWhile Text.isWordChar) with hkind | hkind <;>
      cases hkind.symm.trans hd
  split at h
  · next hdigit =>
    obtain ⟨⟨k, number, after⟩, hn⟩ : ∃ r, splitNumber (c :: rest) = r := ⟨_, rfl⟩
    rw [hn] at h
    cases h
    cases hk
    refine ⟨fun hl hlegal => scanWord_number hdigit hn hl hlegal, fun hd => ?_⟩
    have hkind := splitNumber_kind (c :: rest)
    rw [hn] at hkind
    rcases hkind with hkind | hkind <;> cases hkind.symm.trans hd
  split at h
  · next hq =>
    split at h
    · next body after hs =>
      cases h
      cases hk
      exact ⟨fun _ hlegal => scanWord_string hq hs hlegal, nofun⟩
    · cases h
  split at h
  · next op hop =>
    cases h
    cases hk
    exact ⟨fun _ hlegal => scanWord_operator hop hlegal, nofun⟩
  · split at h
    · next hd =>
      cases h
      cases hk
      have hmem : c ∈ delimiters := by simpa using hd
      refine ⟨fun _ hlegal => (scanWord_delimiter hmem).trans (if_pos hlegal), fun _ => ?_⟩
      rw [scanWord_delimiter hmem]
      split_ifs
      · exact .inl rfl
      · exact .inr rfl
    · cases h

end Reference

end Offside
