import Offside.Json.Reader
import Offside.Proofs.Document

/-!
JSON text is read back. What the writer puts behind a value, a comma, a bracket or blanks, ends the
value for the reader too, so that a text is read piece by piece; the pieces still to be read bound
the steps that are left.
-/

namespace Offside

open Number

namespace Json

variable {α : Type} {rest gap more : List Char} {o fuel depth : Nat} {indent : Option Nat}

/-- Data without floats, the fields of an object under names that differ. -/
inductive Plain : Json → Prop where
  | null : Plain null
  | boolean (b : Bool) : Plain (boolean b)
  | integer (n : Int) : Plain (integer n)
  | string (s : String) : Plain (string s)
  | array {items : List Json} : (∀ j ∈ items, Plain j) → Plain (array items)
  | object {fields : List (String × Json)} : (fields.map Prod.fst).Nodup →
      (∀ f ∈ fields, Plain f.2) → Plain (object fields)

/-- A reading that gives `a` and leaves `rest`. -/
def Leaves (r : Reading α) (a : α) (rest : List Char) : Prop := ∃ o, r = .ok (a, ⟨rest, o⟩)

/-! ### Blanks -/

/-- Nothing but blanks. -/
def Gap (cs : List Char) : Prop := ∀ c ∈ cs, isJsonBlank c = true

/-- A text that does not begin with a blank. -/
def Solid (cs : List Char) : Prop := ∀ c ∈ cs.head?, isJsonBlank c = false

theorem drop_piece (piece : List Char) :
    Cursor.drop ⟨piece ++ rest, o⟩ piece.length = ⟨rest, o + piece.length⟩ := by
  simp [Cursor.drop]

theorem skipBlanks_gap (hg : Gap gap) (hs : Solid rest) :
    Cursor.skipBlanks ⟨gap ++ rest, o⟩ = ⟨rest, o + gap.length⟩ := by
  have hrest : rest.takeWhile isJsonBlank = [] := by
    cases rest with
    | nil => rfl
    | cons c cs => exact List.takeWhile_cons_of_neg (by simpa using hs c rfl)
  have hall : (gap ++ rest).takeWhile isJsonBlank = gap := by
    rw [List.takeWhile_append_of_pos hg, hrest, List.append_nil]
  rw [Cursor.skipBlanks, hall, drop_piece]

theorem gap_nil : Gap [] := List.forall_mem_nil _

theorem skipBlanks_solid (hs : Solid rest) : Cursor.skipBlanks ⟨rest, o⟩ = ⟨rest, o⟩ :=
  skipBlanks_gap gap_nil hs

theorem gap_line (width : Nat) : Gap ('\n' :: List.replicate width ' ') := by
  intro c hc
  rcases List.mem_cons.mp hc with rfl | hc
  · rfl
  · rw [List.eq_of_mem_replicate hc]
    rfl

/-- Blanks open and close a container, and a comma and blanks divide it. -/
theorem spacing_gaps (indent : Option Nat) (depth : Nat) :
    Gap (spacing indent depth).opening.toList ∧ Gap (spacing indent depth).closing.toList ∧
      ∃ gap, (spacing indent depth).divider.toList = ',' :: gap ∧ Gap gap := by
  cases indent with
  | none =>
    have hblank : Gap [' '] := List.forall_mem_singleton.mpr rfl
    exact ⟨gap_nil, gap_nil, [' '], by simp [spacing], hblank⟩
  | some width =>
    have hline (d : Nat) : Gap ("\n" ++ String.ofList (List.replicate (width * d) ' ')).toList := by
      simp only [String.toList_append, String.toList_ofList]
      exact gap_line (width * d)
    exact ⟨hline _, hline _, _, by simp only [spacing, String.toList_append]; rfl,
      hline (depth + 1)⟩

/-! ### Strings -/

theorem hexDigits_control : ∀ n < 0x20, hexNumber? (Text.hexDigits 4 n) = some n := by decide

theorem hexDigits_length (width n : Nat) : (Text.hexDigits width n).length = width := by
  induction width generalizing n with
  | zero => rfl
  | succ width ih => simp [Text.hexDigits, ih]

theorem readUnicodeEscape_control {n : Nat} (hn : n < 0x20) (hmore : more ≠ []) :
    readUnicodeEscape ⟨Text.hexDigits 4 n ++ more, o⟩ = .ok (Char.ofNat n, ⟨more, o + 4⟩) := by
  have hlen := hexDigits_length 4 n
  have htake : (Text.hexDigits 4 n ++ more).take 4 = Text.hexDigits 4 n := List.take_left' hlen
  have hdrop : (Text.hexDigits 4 n ++ more).drop 4 = more := List.drop_left' hlen
  have hlow : ¬ 0xD800 ≤ n := by omega
  simp only [readUnicodeEscape, Cursor.drop, htake, hdrop, hexDigits_control n hn,
    List.isEmpty_iff, hmore, if_false, hlow, false_and, Text.ofCodePoint_low (show n < 0xD800 by omega)]

/-- One character, in the form in which it is written. -/
theorem readString_char (start fuel o : Nat) (read : List Char) (c : Char) (hmore : more ≠ []) :
    ∃ o', readString start (fuel + 1) read ⟨escapeChar c ++ more, o⟩ =
      readString start fuel (c :: read) ⟨more, o'⟩ := by
  unfold escapeChar
  split_ifs with h₁ h₂ h₃ h₄ h₅ h₆ h₇ h₈
  all_goals try (subst c; exact ⟨_, rfl⟩)
  · refine ⟨o + 2 + 4, ?_⟩
    have hescape := readUnicodeEscape_control (o := o + 2) h₈ hmore
    rw [Char.ofNat_toNat] at hescape
    rw [readString]
    simp only [List.cons_append, Cursor.drop, List.drop_succ_cons, List.drop_zero, hescape,
      Char.reduceEq, if_false, if_true]
  · refine ⟨o + 1, ?_⟩
    rw [readString]
    simp [h₁, h₂, h₈, Cursor.drop]

theorem readString_escaped (start : Nat) {cs : List Char} (read : List Char)
    (hf : cs.length < fuel) :
    Leaves (readString start fuel read ⟨cs.flatMap escapeChar ++ '"' :: rest, o⟩)
      (String.ofList (read.reverse ++ cs)) rest := by
  induction cs generalizing fuel read o with
  | nil =>
    obtain ⟨fuel, rfl⟩ := Nat.exists_eq_succ_of_ne_zero (Nat.ne_of_gt hf)
    exact ⟨o + 1, by simp [readString, Cursor.drop]⟩
  | cons c cs ih =>
    obtain ⟨fuel, rfl⟩ := Nat.exists_eq_succ_of_ne_zero (Nat.ne_zero_of_lt hf)
    have hmore : cs.flatMap escapeChar ++ '"' :: rest ≠ [] := by simp
    obtain ⟨o', hstep⟩ := readString_char start fuel o read c hmore
    rw [List.flatMap_cons, List.append_assoc, hstep]
    have := ih (o := o') (c :: read) (Nat.lt_of_succ_lt_succ hf)
    rwa [List.reverse_cons, List.append_assoc, List.singleton_append] at this

/-! ### Numbers and words -/

/-- A text that does not go on with a number before it. -/
def Stops (cs : List Char) : Prop :=
  ∀ c ∈ cs.head?, c.isDigit = false ∧ c ≠ '.' ∧ c ≠ 'e' ∧ c ≠ 'E'

theorem fractionText_stops (hs : Stops rest) : fractionText rest = [] := by
  cases rest with
  | nil => rfl
  | cons c cs =>
    have hc : c ≠ '.' := (hs c rfl).2.1
    unfold fractionText
    split
    · next heq => exact absurd (List.cons.inj heq).1 hc
    · rfl

theorem exponentText_stops (hs : Stops rest) : exponentText rest = [] := by
  cases rest with
  | nil => rfl
  | cons c cs =>
    obtain ⟨-, -, he, hE⟩ := hs c rfl
    simp [exponentText, he, hE]

theorem takeWhile_digits {ds : List Char} (hd : IsDigits ds) (hs : Stops rest) :
    (ds ++ rest).takeWhile Char.isDigit = ds := by
  have hrest : rest.takeWhile Char.isDigit = [] := by
    cases rest with
    | nil => rfl
    | cons c cs => exact List.takeWhile_cons_of_neg (by simpa using (hs c rfl).1)
  rw [List.takeWhile_append_of_pos hd.2, hrest, List.append_nil]

/-- The digits of a numeral are read as a whole. -/
theorem readNumber_digits {sign ds : List Char} {n : Int} (hsign : sign = [] ∨ sign = ['-'])
    (hd : IsDigits ds) (hzero : Trimmed ds)
    (hn : readInteger? (sign ++ ds) = some n) (hs : Stops rest) :
    Leaves (readNumber none ⟨sign ++ (ds ++ rest), o⟩) (integer n) rest := by
  have hfraction := fractionText_stops hs
  have hexponent := exponentText_stops hs
  obtain ⟨d, more, rfl⟩ := List.exists_cons_of_ne_nil hd.1
  have hminus : d ≠ '-' := by
    rintro rfl
    exact absurd (hd.2 '-' List.mem_cons_self) (by decide)
  refine ⟨o + (sign ++ d :: more).length, ?_⟩
  by_cases hd0 : d = '0'
  · subst hd0
    obtain rfl := hzero more rfl
    rcases hsign with rfl | rfl <;> simp_all [readNumber, Cursor.drop]
  · have hwhole := takeWhile_digits hd hs
    rcases hsign with rfl | rfl <;> simp_all [readNumber, Cursor.drop]

theorem readNumber_numeral (n : Int) (hs : Stops rest) :
    Leaves (readNumber none ⟨numeralChars n ++ rest, o⟩) (integer n) rest := by
  have hn := readInteger_numeral n
  rw [numeral_eq, String.toList_ofList] at hn
  cases n with
  | ofNat n =>
    exact readNumber_digits (.inl rfl) (natNumeral_digits n) (natNumeral_trimmed n) hn hs
  | negSucc n =>
    exact readNumber_digits (.inr rfl) (natNumeral_digits (n + 1)) (natNumeral_trimmed (n + 1)) hn hs

/-- A numeral begins with a digit, or with a sign and a digit. -/
theorem numeralChars_begin (n : Int) : ∃ d cs, d.isDigit = true ∧
    (numeralChars n = d :: cs ∨ numeralChars n = '-' :: d :: cs) := by
  have hdigits (n : Nat) : ∃ d cs, d.isDigit = true ∧ natNumeral n = d :: cs := by
    obtain ⟨hne, hd⟩ := natNumeral_digits n
    obtain ⟨d, cs, hcs⟩ := List.exists_cons_of_ne_nil hne
    exact ⟨d, cs, hd d (by rw [hcs]; exact List.mem_cons_self), hcs⟩
  cases n with
  | ofNat n =>
    obtain ⟨d, cs, hd, hcs⟩ := hdigits n
    exact ⟨d, cs, hd, .inl hcs⟩
  | negSucc n =>
    obtain ⟨d, cs, hd, hcs⟩ := hdigits (n + 1)
    exact ⟨d, cs, hd, .inr (congrArg ('-' :: ·) hcs)⟩

theorem readConstant_none {c : Cursor} {words : List (String × Json)}
    (h : ∀ e ∈ words, e.1.toList.isPrefixOf c.rest = false) : readConstant? c words = none := by
  induction words with
  | nil => rfl
  | cons e words ih =>
    obtain ⟨he, hwords⟩ := List.forall_mem_cons.mp h
    have hword : c.word? e.1 = none := by simp [Cursor.word?, he]
    rw [readConstant?, hword]
    exact ih hwords

/-- No word begins as a numeral does. -/
theorem constant_no_numeral {d : Char} {cs : List Char} (hd : d.isDigit = true) (sign : Bool) :
    ∀ e ∈ constants, e.1.toList.isPrefixOf (if sign then '-' :: d :: cs else d :: cs) = false := by
  have hne := digit_forall (P := fun d => d ≠ 'n' ∧ d ≠ 't' ∧ d ≠ 'f' ∧ d ≠ 'N' ∧ d ≠ 'I' ∧ d ≠ '-')
    hd (by decide)
  obtain ⟨hn, ht, hf, hN, hI, hminus⟩ := hne
  cases sign <;>
    simp [constants, List.isPrefixOf, Ne.symm hn, Ne.symm ht, Ne.symm hf, Ne.symm hN, Ne.symm hI,
      Ne.symm hminus]

theorem readValue_numeral (n : Int) (hs : Stops rest) :
    Leaves (readValue none (fuel + 1) ⟨numeralChars n ++ rest, o⟩) (integer n) rest := by
  have hread := readNumber_numeral (o := o) n hs
  obtain ⟨d, cs, hd, hcs⟩ := numeralChars_begin n
  have hne := digit_forall (P := fun d => d ≠ '"' ∧ d ≠ '[' ∧ d ≠ '\x7b') hd (by decide)
  rcases hcs with hcs | hcs <;> rw [hcs] at hread ⊢
  · have hnone := readConstant_none (c := ⟨d :: cs ++ rest, o⟩) (constant_no_numeral hd false)
    rw [readValue]
    simp only [List.cons_append, hne, if_false] at hread hnone ⊢
    rw [hnone]
    exact hread
  · have hnone := readConstant_none (c := ⟨'-' :: d :: cs ++ rest, o⟩) (constant_no_numeral hd true)
    rw [readValue]
    simp only [List.cons_append, Char.reduceEq, if_false] at hread hnone ⊢
    rw [hnone]
    exact hread

/-! ### Between values -/

/-- What the writer puts between values besides blanks. -/
def marks : List Char := [',', ':', ']', '\x7d']

theorem solid_mark {c : Char} (hc : c ∈ marks) (rest : List Char) : Solid (c :: rest) := by
  have hall : ∀ c ∈ marks, isJsonBlank c = false := by simp [marks, isJsonBlank]
  intro x hx
  rw [← Option.some.inj hx]
  exact hall c hc

theorem solid_quote (rest : List Char) : Solid ('"' :: rest) := by
  intro x hx
  rw [← Option.some.inj hx]
  rfl

theorem stops_mark {c : Char} (hc : c ∈ marks) (rest : List Char) : Stops (c :: rest) := by
  have hall : ∀ c ∈ marks, c.isDigit = false ∧ c ≠ '.' ∧ c ≠ 'e' ∧ c ≠ 'E' := by simp [marks]
  intro x hx
  rw [← Option.some.inj hx]
  exact hall c hc

theorem stops_blank {c : Char} (hc : isJsonBlank c = true) (rest : List Char) :
    Stops (c :: rest) := by
  have hall : ∀ c ∈ [' ', '\t', '\n', '\r'], c.isDigit = false ∧ c ≠ '.' ∧ c ≠ 'e' ∧ c ≠ 'E' := by
    simp
  intro x hx
  rw [← Option.some.inj hx]
  exact hall c (by simpa [isJsonBlank, or_assoc] using hc)

theorem stops_gap {c : Char} (hg : Gap gap) (hc : c ∈ marks) (rest : List Char) :
    Stops (gap ++ c :: rest) := by
  cases gap with
  | nil => exact stops_mark hc rest
  | cons b gap => exact stops_blank (hg b List.mem_cons_self) _

/-- The text of a value begins with a character that is no blank and ends nothing. -/
def Begins (cs : List Char) : Prop :=
  ∃ x more, cs = x :: more ∧ isJsonBlank x = false ∧ x ≠ ']' ∧ x ≠ '\ufeff'

theorem Begins.append {cs : List Char} (h : Begins cs) (rest : List Char) :
    Begins (cs ++ rest) := by
  obtain ⟨x, more, rfl, hx⟩ := h
  exact ⟨x, more ++ rest, rfl, hx⟩

theorem Begins.solid {cs : List Char} (h : Begins cs) : Solid cs := by
  obtain ⟨x, more, rfl, hx, -⟩ := h
  intro c hc
  rwa [← Option.some.inj hc]

theorem render_begins {j : Json} (hj : j.Plain) (indent : Option Nat) (depth : Nat) :
    Begins (renderAt indent depth j).toList := by
  cases hj with
  | null => exact ⟨'n', ['u', 'l', 'l'], by rw [renderAt]; rfl, by decide, by decide, by decide⟩
  | boolean b =>
    rw [renderAt]
    cases b
    · exact ⟨'f', ['a', 'l', 's', 'e'], rfl, by decide, by decide, by decide⟩
    · exact ⟨'t', ['r', 'u', 'e'], rfl, by decide, by decide, by decide⟩
  | integer n =>
    obtain ⟨d, cs, hd, hcs⟩ := numeralChars_begin n
    have hne := digit_forall (P := fun d => isJsonBlank d = false ∧ d ≠ ']' ∧ d ≠ '\ufeff') hd
      (by decide)
    rw [renderAt, numeral_eq, String.toList_ofList]
    rcases hcs with hcs | hcs
    · exact ⟨d, cs, hcs, hne⟩
    · exact ⟨'-', d :: cs, hcs, by decide, by decide, by decide⟩
  | string s =>
    rw [renderAt, quote, String.toList_ofList]
    exact ⟨'"', _, rfl, by decide, by decide, by decide⟩
  | @array items _ =>
    have hopen : ∃ more, (renderAt indent depth (array items)).toList = '[' :: more := by
      cases items <;> simp [renderAt]
    obtain ⟨more, hmore⟩ := hopen
    exact ⟨'[', more, hmore, by decide, by decide, by decide⟩
  | @object fields _ _ =>
    have hopen : ∃ more, (renderAt indent depth (object fields)).toList = '\x7b' :: more := by
      cases fields <;> simp [renderAt]
    obtain ⟨more, hmore⟩ := hopen
    exact ⟨'\x7b', more, hmore, by decide, by decide, by decide⟩

/-! ### Containers -/

/-- A value that is read back wherever its text stands. -/
def ReadsBack (indent : Option Nat) (depth : Nat) (j : Json) : Prop :=
  ∀ fuel o rest, Stops rest → (renderAt indent depth j).toList.length < fuel →
    Leaves (readValue none fuel ⟨(renderAt indent depth j).toList ++ rest, o⟩) j rest

section

variable {c : Cursor} {divider : String} {closing : List Char} {item : Json} {read : List Json}

theorem readItems_last (hclosing : Gap closing)
    (h : Leaves (readValue none fuel c) item (closing ++ ']' :: rest)) :
    Leaves (readItems none (fuel + 1) read c) (array (item :: read).reverse) rest := by
  obtain ⟨o, hread⟩ := h
  have hskip := skipBlanks_gap (o := o) hclosing (solid_mark (by decide : ']' ∈ marks) rest)
  refine ⟨o + closing.length + 1, ?_⟩
  rw [readItems, hread]
  simp [hskip, Cursor.drop]

theorem readItems_next (hgap : Gap gap) (hmore : Solid more)
    (h : Leaves (readValue none fuel c) item (',' :: (gap ++ more))) :
    ∃ o, readItems none (fuel + 1) read c = readItems none fuel (item :: read) ⟨more, o⟩ := by
  obtain ⟨o, hread⟩ := h
  have hmark := skipBlanks_solid (o := o) (solid_mark (by decide : ',' ∈ marks) (gap ++ more))
  have hskip := skipBlanks_gap (o := o + 1) hgap hmore
  refine ⟨o + 1 + gap.length, ?_⟩
  rw [readItems, hread]
  simp [hmark, hskip, Cursor.drop]

theorem readItems_render (hdivider : divider.toList = ',' :: gap) (hgap : Gap gap)
    (hclosing : Gap closing) {items : List Json} (hplain : ∀ j ∈ items, j.Plain)
    (hback : ∀ j ∈ item :: items, ReadsBack indent depth j)
    (hf : (renderAt indent depth item).toList.length +
      (renderItems indent depth divider items).toList.length + closing.length + 1 < fuel) :
    Leaves (readItems none fuel read ⟨(renderAt indent depth item).toList ++
      ((renderItems indent depth divider items).toList ++ (closing ++ ']' :: rest)), o⟩)
      (array ((item :: read).reverse ++ items)) rest := by
  induction items generalizing item fuel read o with
  | nil =>
    obtain ⟨fuel, rfl⟩ := Nat.exists_eq_succ_of_ne_zero (Nat.ne_zero_of_lt hf)
    have hstops := stops_gap hclosing (by decide : ']' ∈ marks) rest
    rw [renderItems, List.append_nil]
    exact readItems_last hclosing (hback item List.mem_cons_self fuel o _ hstops (by omega))
  | cons next items ih =>
    obtain ⟨hitem, hitems⟩ := List.forall_mem_cons.mp hback
    obtain ⟨hnext, hplain⟩ := List.forall_mem_cons.mp hplain
    have htext : (renderItems indent depth divider (next :: items)).toList =
        ',' :: (gap ++ ((renderAt indent depth next).toList ++
          (renderItems indent depth divider items).toList)) := by
      simp only [renderItems, String.toList_append, hdivider, List.cons_append, List.append_assoc]
    simp only [htext, List.length_cons, List.length_append] at hf
    obtain ⟨fuel, rfl⟩ := Nat.exists_eq_succ_of_ne_zero (Nat.ne_zero_of_lt hf)
    simp only [htext, List.cons_append, List.append_assoc]
    have hsolid := ((render_begins hnext indent depth).append
      ((renderItems indent depth divider items).toList ++ (closing ++ ']' :: rest))).solid
    have hcomma : ',' ∈ marks := by decide
    obtain ⟨o', hstep⟩ := readItems_next hgap hsolid
      (hitem fuel o _ (stops_mark hcomma _) (by omega))
    have hmove : (next :: item :: read).reverse ++ items =
        (item :: read).reverse ++ next :: items := by simp
    rw [hstep, ← hmove]
    exact ih hplain hitems (by omega)

/-! ### Objects -/

theorem setField_new {fields more : List (String × Json)} {key : String} {value : Json}
    (h : ((fields ++ (key, value) :: more).map Prod.fst).Nodup) :
    setField fields key value = fields ++ [(key, value)] := by
  have hnone : fields.any (·.1 == key) = false := by
    refine List.any_eq_false.mpr fun f hf heq => ?_
    rw [List.map_append, List.nodup_append] at h
    exact h.2.2 f.1 (List.mem_map_of_mem hf) key List.mem_cons_self (by simpa using heq)
  rw [setField, if_neg (by simp [hnone])]

theorem escape_length (cs : List Char) : cs.length ≤ (cs.flatMap escapeChar).length := by
  have hpos (c : Char) : 0 < (escapeChar c).length := by
    unfold escapeChar
    split_ifs <;> simp
  induction cs with
  | nil => exact Nat.le_refl 0
  | cons c cs ih =>
    rw [List.flatMap_cons, List.length_append, List.length_cons]
    have := hpos c
    omega

theorem quote_toList (s : String) :
    (quote s).toList = '"' :: (s.toList.flatMap escapeChar ++ ['"']) := by
  rw [quote, String.toList_ofList]
  rfl

theorem readString_quote (start : Nat) (s : String) (rest : List Char)
    (hf : s.toList.length < fuel) :
    Leaves (readString start fuel [] ⟨s.toList.flatMap escapeChar ++ '"' :: rest, o⟩) s rest := by
  have h : Leaves (readString start fuel [] ⟨s.toList.flatMap escapeChar ++ '"' :: rest, o⟩)
      (String.ofList s.toList) rest := readString_escaped start [] hf
  rwa [String.ofList_toList] at h

/-- The text of a field from behind its opening quote on; `cs` is that of its value and of what
comes next. -/
def fieldText (key : String) (cs : List Char) : List Char :=
  key.toList.flatMap escapeChar ++ '"' :: ':' :: ' ' :: cs

variable {key : String} {value : Json} {cs tail : List Char} {fields : List (String × Json)}

theorem field_parts (start : Nat) (hkey : key.toList.length < fuel) (hcs : Solid cs)
    (hvalue : ∀ o, Leaves (readValue none fuel ⟨cs, o⟩) value tail) :
    ∃ o₁ o₂, readString start fuel [] ⟨fieldText key cs, o⟩ = .ok (key, ⟨':' :: ' ' :: cs, o₁⟩) ∧
      readValue none fuel (Cursor.skipBlanks ⟨' ' :: cs, o₁ + 1⟩) = .ok (value, ⟨tail, o₂⟩) := by
  have hblank : Gap [' '] := List.forall_mem_singleton.mpr rfl
  obtain ⟨o₁, hread⟩ := readString_quote start key _ hkey
  have hskip := skipBlanks_gap (o := o₁ + 1) hblank hcs
  obtain ⟨o₂, hv⟩ := hvalue (o₁ + 2)
  refine ⟨o₁, o₂, hread, ?_⟩
  rw [List.singleton_append] at hskip
  rw [hskip]
  exact hv

theorem readFields_last (hkey : key.toList.length < fuel) (hcs : Solid cs) (hclosing : Gap closing)
    (hvalue : ∀ o, Leaves (readValue none fuel ⟨cs, o⟩) value (closing ++ '\x7d' :: rest)) :
    Leaves (readFields none (fuel + 1) fields ⟨'"' :: fieldText key cs, o⟩)
      (object (setField fields key value)) rest := by
  obtain ⟨o₁, o₂, hread, hv⟩ := field_parts (o := o + 1) o hkey hcs hvalue
  have hmark := skipBlanks_solid (o := o₁) (solid_mark (by decide : ':' ∈ marks) (' ' :: cs))
  have hskip := skipBlanks_gap (o := o₂) hclosing (solid_mark (by decide : '\x7d' ∈ marks) rest)
  refine ⟨o₂ + closing.length + 1, ?_⟩
  rw [readFields]
  simp only [Cursor.drop, List.drop_succ_cons, List.drop_zero, hread, hmark, hv, hskip]

theorem readFields_next (hkey : key.toList.length < fuel) (hcs : Solid cs) (hgap : Gap gap)
    (hmore : Solid more)
    (hvalue : ∀ o, Leaves (readValue none fuel ⟨cs, o⟩) value (',' :: (gap ++ more))) :
    ∃ o', readFields none (fuel + 1) fields ⟨'"' :: fieldText key cs, o⟩ =
      readFields none fuel (setField fields key value) ⟨more, o'⟩ := by
  obtain ⟨o₁, o₂, hread, hv⟩ := field_parts (o := o + 1) o hkey hcs hvalue
  have hmark := skipBlanks_solid (o := o₁) (solid_mark (by decide : ':' ∈ marks) (' ' :: cs))
  have hcomma := skipBlanks_solid (o := o₂) (solid_mark (by decide : ',' ∈ marks) (gap ++ more))
  have hskip := skipBlanks_gap (o := o₂ + 1) hgap hmore
  refine ⟨o₂ + 1 + gap.length, ?_⟩
  rw [readFields]
  simp only [Cursor.drop, List.drop_succ_cons, List.drop_zero, hread, hmark, hv, hcomma, hskip]

theorem quote_length (s : String) : s.toList.length + 2 ≤ (quote s).toList.length := by
  have := escape_length s.toList
  simp only [quote_toList, List.length_cons, List.length_append, List.length_nil]
  omega

/-- What stands behind a field and divides it from the next. -/
theorem renderFields_cons (hdivider : divider.toList = ',' :: gap) (key : String) (value : Json)
    (more : List (String × Json)) (tail : List Char) :
    (renderFields indent depth divider ((key, value) :: more)).toList ++ tail =
      ',' :: (gap ++ '"' :: fieldText key ((renderAt indent depth value).toList ++
        ((renderFields indent depth divider more).toList ++ tail))) := by
  simp [renderFields, hdivider, quote_toList, fieldText]

theorem renderFields_length (hdivider : divider.toList = ',' :: gap) (key : String) (value : Json)
    (more : List (String × Json)) :
    (renderFields indent depth divider ((key, value) :: more)).toList.length =
      1 + gap.length + (quote key).toList.length + 2 + (renderAt indent depth value).toList.length +
        (renderFields indent depth divider more).toList.length := by
  simp [renderFields, hdivider]
  omega

theorem readFields_render (hdivider : divider.toList = ',' :: gap) (hgap : Gap gap)
    (hclosing : Gap closing) {more : List (String × Json)} (hplain : value.Plain)
    (hvalue : ReadsBack indent depth value) (hplains : ∀ f ∈ more, f.2.Plain)
    (hback : ∀ f ∈ more, ReadsBack indent depth f.2)
    (hnew : ((fields ++ (key, value) :: more).map Prod.fst).Nodup)
    (hf : (quote key).toList.length + 2 + (renderAt indent depth value).toList.length +
      (renderFields indent depth divider more).toList.length + closing.length + 1 < fuel) :
    Leaves (readFields none fuel fields ⟨'"' :: fieldText key
      ((renderAt indent depth value).toList ++
        ((renderFields indent depth divider more).toList ++ (closing ++ '\x7d' :: rest))), o⟩)
      (object (fields ++ (key, value) :: more)) rest := by
  induction more generalizing key value fields fuel o with
  | nil =>
    have hkey := quote_length key
    obtain ⟨fuel, rfl⟩ := Nat.exists_eq_succ_of_ne_zero (Nat.ne_zero_of_lt hf)
    have hstops := stops_gap hclosing (by decide : '\x7d' ∈ marks) rest
    rw [← setField_new hnew]
    exact readFields_last (by omega) ((render_begins hplain indent depth).append _).solid hclosing
      fun o => hvalue fuel o _ hstops (by omega)
  | cons next more ih =>
    obtain ⟨key', value'⟩ := next
    have hkey := quote_length key
    obtain ⟨hplain', hplains⟩ := List.forall_mem_cons.mp hplains
    obtain ⟨hvalue', hback⟩ := List.forall_mem_cons.mp hback
    obtain ⟨fuel, rfl⟩ := Nat.exists_eq_succ_of_ne_zero (Nat.ne_zero_of_lt hf)
    rw [renderFields_length hdivider] at hf
    rw [renderFields_cons hdivider]
    have hkey : key.toList.length < fuel := by omega
    have hcomma : ',' ∈ marks := by decide
    obtain ⟨o', hstep⟩ := readFields_next hkey
      ((render_begins hplain indent depth).append _).solid hgap (solid_quote _) fun o => hvalue fuel o _ (stops_mark hcomma _) (by omega)
    have hmove : fields ++ (key, value) :: (key', value') :: more =
        (fields ++ [(key, value)]) ++ (key', value') :: more := by simp
    rw [hstep, setField_new hnew, hmove]
    exact ih hplain' hvalue' hplains hback (hmove ▸ hnew) (by omega)

end

/-! ### Values -/

theorem readValue_null : Leaves (readValue none (fuel + 1) ⟨"null".toList ++ rest, o⟩) null rest :=
  ⟨o + 4, rfl⟩

theorem readValue_boolean (b : Bool) :
    Leaves (readValue none (fuel + 1) ⟨(if b then "true" else "false").toList ++ rest, o⟩)
      (boolean b) rest := by
  cases b
  · exact ⟨o + 5, rfl⟩
  · exact ⟨o + 4, rfl⟩

theorem readValue_quote (s : String) (hf : (quote s).toList.length ≤ fuel) :
    Leaves (readValue none (fuel + 1) ⟨(quote s).toList ++ rest, o⟩) (string s) rest := by
  have hs := quote_length s
  have hlt : s.toList.length < fuel := by omega
  obtain ⟨o', hread⟩ := readString_quote (o := o + 1) o s rest hlt
  refine ⟨o', ?_⟩
  rw [quote_toList, readValue]
  simp only [List.cons_append, List.append_assoc, List.nil_append, Cursor.drop, List.drop_succ_cons,
    List.drop_zero, if_true, hread]

theorem readValue_items {cs : List Char} (hgap : Gap gap) (hcs : Begins cs) :
    ∃ o', readValue none (fuel + 1) ⟨'[' :: (gap ++ cs), o⟩ = readItems none fuel [] ⟨cs, o'⟩ := by
  have hskip := skipBlanks_gap (o := o + 1) hgap hcs.solid
  obtain ⟨x, more, rfl, -, hx, -⟩ := hcs
  refine ⟨o + 1 + gap.length, ?_⟩
  rw [readValue]
  simp only [Cursor.drop, List.drop_succ_cons, List.drop_zero, Char.reduceEq, if_false, if_true,
    hskip]
  split
  · next heq => exact absurd (List.cons.inj heq).1 hx
  · rfl

theorem readValue_fields {cs : List Char} (hgap : Gap gap) :
    ∃ o', readValue none (fuel + 1) ⟨'\x7b' :: (gap ++ '"' :: cs), o⟩ =
      readFields none fuel [] ⟨'"' :: cs, o'⟩ := by
  have hskip := skipBlanks_gap (o := o + 1) hgap (solid_quote cs)
  refine ⟨o + 1 + gap.length, ?_⟩
  rw [readValue]
  simp only [Cursor.drop, List.drop_succ_cons, List.drop_zero, Char.reduceEq, if_false, if_true,
    hskip]
  rfl

theorem render_array (indent : Option Nat) (depth : Nat) (item : Json) (items : List Json) :
    (renderAt indent depth (array (item :: items))).toList =
      '[' :: ((spacing indent depth).opening.toList ++ ((renderAt indent (depth + 1) item).toList ++
        ((renderItems indent (depth + 1) (spacing indent depth).divider items).toList ++
          ((spacing indent depth).closing.toList ++ [']'])))) := by
  simp [renderAt]

theorem render_object (indent : Option Nat) (depth : Nat) (key : String) (value : Json)
    (fields : List (String × Json)) :
    (renderAt indent depth (object ((key, value) :: fields))).toList =
      '\x7b' :: ((spacing indent depth).opening.toList ++ ((quote key).toList ++ (':' :: ' ' ::
        ((renderAt indent (depth + 1) value).toList ++
          ((renderFields indent (depth + 1) (spacing indent depth).divider fields).toList ++
            ((spacing indent depth).closing.toList ++ ['\x7d'])))))) := by
  simp [renderAt]

theorem readValue_array {items : List Json} (hplain : ∀ j ∈ items, j.Plain)
    (hback : ∀ j ∈ items, ReadsBack indent (depth + 1) j)
    (hf : (renderAt indent depth (array items)).toList.length ≤ fuel) :
    Leaves (readValue none (fuel + 1) ⟨(renderAt indent depth (array items)).toList ++ rest, o⟩)
      (array items) rest := by
  cases items with
  | nil =>
    have hskip := skipBlanks_solid (o := o + 1) (solid_mark (by decide : ']' ∈ marks) rest)
    have htext : (renderAt indent depth (array [])).toList ++ rest = '[' :: ']' :: rest := by
      rw [renderAt]
      rfl
    refine ⟨o + 2, ?_⟩
    rw [htext, readValue]
    simp only [Cursor.drop, List.drop_succ_cons, List.drop_zero, Char.reduceEq, if_false, if_true,
      hskip]
  | cons item items =>
    obtain ⟨hopening, hclosing, gap, hdivider, hgap⟩ := spacing_gaps indent depth
    obtain ⟨hitem, hitems⟩ := List.forall_mem_cons.mp hplain
    rw [render_array] at hf ⊢
    simp only [List.length_cons, List.length_append, List.length_nil] at hf
    simp only [List.cons_append, List.append_assoc, List.nil_append]
    obtain ⟨o', hstep⟩ := readValue_items hopening
      ((render_begins hitem indent (depth + 1)).append _)
    rw [hstep]
    exact readItems_render hdivider hgap hclosing hitems hback (by omega)

theorem readValue_object {fields : List (String × Json)}
    (hnames : (fields.map Prod.fst).Nodup) (hplain : ∀ f ∈ fields, f.2.Plain)
    (hback : ∀ f ∈ fields, ReadsBack indent (depth + 1) f.2)
    (hf : (renderAt indent depth (object fields)).toList.length ≤ fuel) :
    Leaves (readValue none (fuel + 1) ⟨(renderAt indent depth (object fields)).toList ++ rest, o⟩)
      (object fields) rest := by
  rcases fields with _ | ⟨⟨key, value⟩, fields⟩
  · have hskip := skipBlanks_solid (o := o + 1) (solid_mark (by decide : '\x7d' ∈ marks) rest)
    have htext : (renderAt indent depth (object [])).toList ++ rest = '\x7b' :: '\x7d' :: rest := by
      rw [renderAt]
      rfl
    refine ⟨o + 2, ?_⟩
    rw [htext, readValue]
    simp only [Cursor.drop, List.drop_succ_cons, List.drop_zero, Char.reduceEq, if_false, if_true,
      hskip]
  · obtain ⟨hopening, hclosing, gap, hdivider, hgap⟩ := spacing_gaps indent depth
    obtain ⟨hvalue, hfields⟩ := List.forall_mem_cons.mp hplain
    obtain ⟨hback, hbacks⟩ := List.forall_mem_cons.mp hback
    rw [render_object] at hf ⊢
    simp only [List.length_cons, List.length_append, List.length_nil] at hf
    simp only [List.cons_append, List.append_assoc, List.nil_append, quote_toList]
    obtain ⟨o', hstep⟩ := readValue_fields hopening
    rw [hstep]
    exact readFields_render hdivider hgap hclosing hvalue hback hfields hbacks hnames (by omega)

theorem readsBack_of_value {j : Json} (h : ∀ fuel o rest, Stops rest →
    (renderAt indent depth j).toList.length ≤ fuel →
    Leaves (readValue none (fuel + 1) ⟨(renderAt indent depth j).toList ++ rest, o⟩) j rest) :
    ReadsBack indent depth j := by
  intro fuel o rest hs hf
  obtain ⟨fuel, rfl⟩ := Nat.exists_eq_succ_of_ne_zero (Nat.ne_zero_of_lt hf)
  exact h fuel o rest hs (Nat.le_of_lt_succ hf)

theorem plain_readsBack {j : Json} (hj : j.Plain) (indent : Option Nat) (depth : Nat) :
    ReadsBack indent depth j := by
  induction hj generalizing depth with refine readsBack_of_value fun fuel o rest hs hf => ?_
  | null =>
    rw [renderAt]
    exact readValue_null
  | boolean b =>
    rw [renderAt]
    exact readValue_boolean b
  | integer n =>
    rw [renderAt, numeral_eq, String.toList_ofList]
    exact readValue_numeral n hs
  | string s =>
    rw [renderAt] at hf ⊢
    exact readValue_quote s hf
  | array hplain ih => exact readValue_array hplain (fun j hj => ih j hj _) hf
  | object hnames hplain ih => exact readValue_object hnames hplain (fun f hf => ih f hf _) hf

/-- The text of plain data is read as these data. -/
theorem parse_render {j : Json} (hj : j.Plain) (indent : Option Nat) :
    parse (j.render indent) = .ok j := by
  have hstops : Stops [] := fun _ hc => by cases hc
  obtain ⟨o, hread⟩ := plain_readsBack hj indent 0
    (2 * (renderAt indent 0 j).toList.length + 2) 0 [] hstops (by omega)
  rw [List.append_nil] at hread
  have hskip := skipBlanks_solid (o := 0) (render_begins hj indent 0).solid
  have hend : Cursor.skipBlanks ⟨[], o⟩ = ⟨[], o⟩ := skipBlanks_gap gap_nil fun _ hc => by cases hc
  obtain ⟨x, more, hx, -, -, hmark⟩ := render_begins hj indent 0
  rw [render, parse]
  split
  · next heq =>
    rw [hx] at heq
    exact absurd (List.cons.inj heq).1 hmark
  · simp only [hskip, hread, hend, List.isEmpty_nil, if_true]

end Json

end Offside
