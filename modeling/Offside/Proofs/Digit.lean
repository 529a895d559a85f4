import Offside.Proofs.Lexer.Move

/-!
Which numbers of a source can be converted. An integer needs digits of ASCII; a number with a point
needs decimal digits, of any script, for which the digits of ASCII are put in.
-/

namespace Offside.Number

open Lexer

theorem readInteger_none {cs : List Char} (h : Digits cs) (hn : readInteger? cs = none) :
    ∃ c ∈ cs, c.isDigit = false := by
  by_contra hall
  have hd : IsDigits cs := by
    refine ⟨h.1, fun c hc => ?_⟩
    by_contra hc'
    exact hall ⟨c, hc, by simpa using hc'⟩
  rw [readInteger_digits hd] at hn
  cases hn

theorem decimalValue_lt {c : Char} {n : Nat} (h : Text.decimalValue? c = some n) : n < 10 := by
  unfold Text.decimalValue? at h
  split_ifs at h with h₁ h₂
  · have hlt : ∀ d ∈ ['0', '1', '2', '3', '4', '5', '6', '7', '8', '9'], d.toNat - 0x30 < 10 := by
      simp
    cases h
    exact hlt c (digit_mem h₂)
  · obtain ⟨r, -, rfl⟩ := Option.map_eq_some_iff.mp h
    exact Nat.mod_lt _ (by decide)

theorem asciiDigit_isDigit {c : Char} (h : Text.isDecimal c = true) :
    (asciiDigit c).isDigit = true := by
  obtain ⟨n, hn⟩ := Option.isSome_iff_exists.mp h
  have hlt := decimalValue_lt hn
  rw [asciiDigit, hn]
  dsimp only
  interval_cases n <;> decide

/-- A range that meets none of the others holds none of their characters. -/
theorem has_of_apart {c : Char} {r : Nat × Nat} {others : Text.Ranges}
    (hapart : ∀ b ∈ others, r.2 < b.1 ∨ b.2 < r.1) (hin : r.1 ≤ c.toNat ∧ c.toNat ≤ r.2) :
    others.has c = false := by
  refine List.any_eq_false.mpr fun b hb => ?_
  have hne := hapart b hb
  simp only [Bool.and_eq_true, decide_eq_true_eq, not_and]
  omega

theorem decimal_range {c : Char} (h : Text.isDecimal c = true) :
    (c.toNat < 0x80 ∧ c.isDigit = true) ∨
      ¬ c.toNat < 0x80 ∧ ∃ r ∈ Text.decimalRanges, r.1 ≤ c.toNat ∧ c.toNat ≤ r.2 := by
  obtain ⟨n, hn⟩ := Option.isSome_iff_exists.mp h
  unfold Text.decimalValue? at hn
  split_ifs at hn with h₁ h₂
  · exact .inl ⟨h₁, h₂⟩
  · obtain ⟨r, hr, -⟩ := Option.map_eq_some_iff.mp hn
    have hin := List.find?_some hr
    simp only [Bool.and_eq_true, decide_eq_true_eq] at hin
    exact .inr ⟨h₁, r, List.mem_of_find?_eq_some hr, hin⟩

/-- Decimal digits are digits. -/
theorem ranges_included :
    ∀ r ∈ Text.decimalRanges, ∃ d ∈ Text.digitRanges, d.1 ≤ r.1 ∧ r.2 ≤ d.2 := by
  decide +kernel

theorem decimal_isDigit {c : Char} (h : Text.isDecimal c = true) : Text.isDigit c = true := by
  unfold Text.isDigit
  rcases decimal_range h with ⟨hlow, hc⟩ | ⟨hlow, r, hr, hin⟩
  · rwa [if_pos hlow]
  · obtain ⟨d, hd, hfirst, hlast⟩ := ranges_included r hr
    rw [if_neg hlow]
    refine List.any_eq_true.mpr ⟨d, hd, ?_⟩
    simp only [Bool.and_eq_true, decide_eq_true_eq]
    omega

/-- Digits, decimal or not, and blanks lie in different ranges. -/
theorem ranges_disjoint :
    ∀ r ∈ Text.digitRanges, ∀ b ∈ Text.blankRanges, r.2 < b.1 ∨ b.2 < r.1 := by
  decide +kernel

theorem isPadding_digit {c : Char} (h : Text.isDigit c = true) : isPadding c = false := by
  unfold Text.isDigit at h
  split_ifs at h with h₁
  · exact digit_forall (P := fun c => isPadding c = false) h (by decide)
  · obtain ⟨r, hr, hin⟩ := List.any_eq_true.mp h
    simp only [Bool.and_eq_true, decide_eq_true_eq] at hin
    have hblank : Text.isBlank c = false := has_of_apart (ranges_disjoint r hr) hin
    rw [isPadding, hblank, Bool.false_and]

/-- Decimal digits and letters lie in different ranges. -/
theorem letters_disjoint :
    (Text.decimalRanges.all fun r => Text.letterRanges.all fun b =>
      r.2.blt b.1 || b.2.blt r.1) = true := by
  decide +kernel

theorem letter_not_decimal {c : Char} (h : Text.isLetter c = true) :
    Text.isDecimal c = false := by
  by_contra hnot
  have hdec : Text.isDecimal c = true := by simpa using hnot
  rw [Text.isLetter] at h
  rcases decimal_range hdec with ⟨hlow, hc⟩ | ⟨hlow, r, hr, hin⟩
  · rw [if_pos hlow] at h
    rw [digit_forall (P := fun c => c.isAlpha = false) hc (by decide)] at h
    cases h
  · have hapart : ∀ b ∈ Text.letterRanges, r.2 < b.1 ∨ b.2 < r.1 := by
      intro b hb
      have hall := List.all_eq_true.mp (List.all_eq_true.mp letters_disjoint r hr) b hb
      simpa [Nat.blt_eq] using hall
    rw [if_neg hlow, has_of_apart hapart hin] at h
    cases h

/-- A number is read as the same number in digits of ASCII. -/
theorem readFloat_ascii {cs : List Char} (hpad : ∀ c ∈ cs, isPadding c = false)
    (hpad' : ∀ c ∈ cs.map asciiDigit, isPadding c = false)
    (hself : ∀ c ∈ cs.map asciiDigit, asciiDigit c = c) :
    readFloat? cs = readFloat? (cs.map asciiDigit) := by
  unfold readFloat?
  rw [trimmed_plain hpad, trimmed_self hpad' hself]

theorem readFloat_decimal {ds fs : List Char} (hds : ds ≠ []) (hfs : fs ≠ [])
    (h : ∀ c ∈ ds ++ fs, Text.isDecimal c = true) :
    ∃ x, readFloat? (ds ++ '.' :: fs) = some x := by
  have hd : IsDigits (ds.map asciiDigit) := by
    refine ⟨by simpa using hds, ?_⟩
    simp only [List.forall_mem_map]
    exact fun c hc => asciiDigit_isDigit (h c (List.mem_append_left fs hc))
  have hf : IsDigits (fs.map asciiDigit) := by
    refine ⟨by simpa using hfs, ?_⟩
    simp only [List.forall_mem_map]
    exact fun c hc => asciiDigit_isDigit (h c (List.mem_append_right ds hc))
  have hmap : (ds ++ '.' :: fs).map asciiDigit = ds.map asciiDigit ++ '.' :: fs.map asciiDigit := by
    simp [show asciiDigit '.' = '.' by decide]
  have hpad : ∀ c ∈ ds ++ '.' :: fs, isPadding c = false := by
    simp only [List.forall_mem_append, List.forall_mem_cons] at h ⊢
    exact ⟨fun c hc => isPadding_digit (decimal_isDigit (h.1 c hc)), by decide,
      fun c hc => isPadding_digit (decimal_isDigit (h.2 c hc))⟩
  rw [readFloat_ascii hpad, hmap, readFloat_point hd hf]
  · exact ⟨_, rfl⟩
  · rw [hmap]
    exact point_forall hd hf (by decide) (by decide)
  · rw [hmap]
    exact point_forall (P := fun c => asciiDigit c = c) hd hf (by decide) (by decide)

theorem readFloat_none {ds fs : List Char} (hd : Digits ds) (hf : Digits fs)
    (hn : readFloat? (ds ++ '.' :: fs) = none) : ∃ c ∈ ds ++ fs, Text.isDecimal c = false := by
  by_contra hall
  obtain ⟨x, hx⟩ := readFloat_decimal hd.1 hf.1 fun c hc => by
    by_contra hc'
    exact hall ⟨c, hc, by simpa using hc'⟩
  rw [hn] at hx
  cases hx

/-! ### Digits that are not decimal -/

theorem ascii_decimal {c : Char} (h : c.isDigit = true) : Text.isDecimal c = true :=
  digit_forall (P := fun c => Text.isDecimal c = true) h (by decide)

/-- No digit is one of the other characters of a number. -/
theorem digit_ne {c : Char} (h : Text.isDigit c = true) :
    ∀ d ∈ ['-', '+', '.', '_', 'e', 'E'], c ≠ d := by
  have hall : ∀ d ∈ ['-', '+', '.', '_', 'e', 'E'], ¬ Text.isDigit d = true :=
    List.all_iff_forall_prop.mp (by decide)
  rintro d hd rfl
  exact hall c hd h

/-- A digit that is not decimal stays, and is none of ASCII. -/
theorem asciiDigit_other {c : Char} (h : Text.isDecimal c = false) :
    asciiDigit c = c ∧ c.isDigit = false := by
  refine ⟨?_, ?_⟩
  · have hnone : Text.decimalValue? c = none := by simpa [Text.isDecimal] using h
    rw [asciiDigit, hnone]
  · by_contra hc
    rw [ascii_decimal (by simpa using hc)] at h
    cases h

theorem asciiDigit_plain {c : Char} (h : Text.isDigit c = true) :
    ∀ d ∈ ['-', '+', '.', '_', 'e', 'E'], asciiDigit c ≠ d := by
  cases hdec : Text.isDecimal c with
  | false =>
    rw [(asciiDigit_other hdec).1]
    exact digit_ne h
  | true =>
    have hdigit := asciiDigit_isDigit hdec
    have hall : ['-', '+', '.', '_', 'e', 'E'].all (fun d => !d.isDigit) = true := by decide
    intro d hd he
    have hnot := List.all_eq_true.mp hall d hd
    rw [← he, hdigit] at hnot
    cases hnot

theorem readInteger_other {cs : List Char} (hcs : ∀ c ∈ cs, Text.isDigit c = true) {d : Char}
    (hd : d ∈ cs) (hdec : Text.isDecimal d = false) : readInteger? cs = none := by
  have hall : cs.all Char.isDigit = false := by
    refine List.all_eq_false.mpr ⟨d, hd, ?_⟩
    simp [(asciiDigit_other hdec).2]
  cases cs with
  | nil => cases hd
  | cons c cs =>
    have hne := digit_ne (hcs c List.mem_cons_self)
    unfold readInteger?
    split
    next negative ds heq =>
      split at heq
      · next h => exact absurd (List.cons.inj h).1 (hne '-' (by simp))
      · next h => exact absurd (List.cons.inj h).1 (hne '+' (by simp))
      · cases heq
        simp [hall]

/-- What stops the reading of a number is no exponent. -/
theorem readExponent_other {cs : List Char} (hcs : ∀ c ∈ cs, c ≠ 'e' ∧ c ≠ 'E') (hne : cs ≠ []) :
    readExponent? cs = none := by
  obtain ⟨c, rest, rfl⟩ := List.exists_cons_of_ne_nil hne
  obtain ⟨h₁, h₂⟩ := hcs c List.mem_cons_self
  rw [readExponent?, if_neg (by simp [h₁, h₂])]

theorem readUnsigned_other {ds fs : List Char}
    (hplain : ∀ c ∈ ds ++ fs, c ≠ '.' ∧ c ≠ 'e' ∧ c ≠ 'E') {d : Char} (hd : d ∈ ds ++ fs)
    (hdigit : d.isDigit = false) : readUnsigned? (ds ++ '.' :: fs) = none := by
  have hexponent {cs : List Char} (hcs : ∀ c ∈ cs, c ∈ ds ++ '.' :: fs) (hne : cs ≠ []) :
      readExponent? cs = none := by
    refine readExponent_other (fun c hc => ?_) hne
    have hmem := hcs c hc
    rw [List.mem_append, List.mem_cons] at hmem
    rcases hmem with h | rfl | h
    · exact (hplain c (List.mem_append_left fs h)).2
    · decide
    · exact (hplain c (List.mem_append_right ds h)).2
  unfold readUnsigned?
  dsimp only
  by_cases hds : ∀ c ∈ ds, c.isDigit = true
  · have hfs : ¬ ∀ c ∈ fs, c.isDigit = true := by
      intro hfs
      rcases List.mem_append.mp hd with h | h
      · rw [hds d h] at hdigit
        cases hdigit
      · rw [hfs d h] at hdigit
        cases hdigit
    rw [List.dropWhile_append_of_pos hds, List.dropWhile_cons, if_neg (show ¬ Char.isDigit '.' = true by decide)]
    have hne : fs.dropWhile Char.isDigit ≠ [] := fun h => hfs (List.dropWhile_eq_nil_iff.mp h)
    have hmem : ∀ c ∈ fs.dropWhile Char.isDigit, c ∈ ds ++ '.' :: fs := fun c hc =>
      List.mem_append_right ds (List.mem_cons_of_mem _ (List.dropWhile_subset _ hc))
    split
    · next heq =>
      obtain rfl := (List.cons.inj heq).2
      dsimp only
      rw [hexponent hmem hne]
      split <;> rfl
    · next hnot => exact absurd rfl (hnot fs)
  · have hne : ds.dropWhile Char.isDigit ≠ [] := fun h => hds (List.dropWhile_eq_nil_iff.mp h)
    obtain ⟨e, more, he⟩ := List.exists_cons_of_ne_nil hne
    have hsplit : (ds ++ '.' :: fs).dropWhile Char.isDigit = e :: (more ++ '.' :: fs) := by
      rw [List.dropWhile_append, he]
      rfl
    have hmem : ∀ c ∈ e :: (more ++ '.' :: fs), c ∈ ds ++ '.' :: fs := by
      rw [← hsplit]
      exact fun c hc => List.dropWhile_subset _ hc
    have hdot : e ≠ '.' := by
      have : e ∈ ds := List.dropWhile_subset _ (he ▸ List.mem_cons_self)
      exact (hplain e (List.mem_append_left fs this)).1
    rw [hsplit]
    split
    · next heq => exact absurd (List.cons.inj heq).1 hdot
    · dsimp only
      rw [hexponent hmem (List.cons_ne_nil _ _)]
      split <;> rfl

/-- A number with a point and a digit that is not decimal cannot be converted. -/
theorem readFloat_other {ds fs : List Char} (hcs : ∀ c ∈ ds ++ fs, Text.isDigit c = true) {d : Char}
    (hd : d ∈ ds ++ fs) (hdec : Text.isDecimal d = false) :
    readFloat? (ds ++ '.' :: fs) = none := by
  have hpad : ∀ c ∈ ds ++ '.' :: fs, isPadding c = false := by
    simp only [List.forall_mem_append, List.forall_mem_cons] at hcs ⊢
    exact ⟨fun c hc => isPadding_digit (hcs.1 c hc), by decide,
      fun c hc => isPadding_digit (hcs.2 c hc)⟩
  have hmap : (ds ++ '.' :: fs).map asciiDigit = ds.map asciiDigit ++ '.' :: fs.map asciiDigit := by
    simp [show asciiDigit '.' = '.' by decide]
  have hplain : ∀ c ∈ ds.map asciiDigit ++ fs.map asciiDigit,
      ∀ e ∈ ['-', '+', '.', '_', 'e', 'E'], c ≠ e := by
    rw [← List.map_append, List.forall_mem_map]
    exact fun c hc => asciiDigit_plain (hcs c hc)
  have hmem : asciiDigit d ∈ ds.map asciiDigit ++ fs.map asciiDigit := by
    rw [← List.map_append]
    exact List.mem_map_of_mem hd
  have hdigit : (asciiDigit d).isDigit = false := by
    rw [(asciiDigit_other hdec).1, (asciiDigit_other hdec).2]
  unfold readFloat?
  rw [trimmed_plain hpad, hmap]
  revert hplain hmem
  generalize ds.map asciiDigit = xs
  generalize fs.map asciiDigit = ys
  intro hplain hmem
  have hunsigned : readUnsigned? (xs ++ '.' :: ys) = none :=
    readUnsigned_other (fun c hc => ⟨hplain c hc '.' (by simp), hplain c hc 'e' (by simp),
      hplain c hc 'E' (by simp)⟩) hmem hdigit
  have hsign : ∀ c ∈ (xs ++ '.' :: ys).head?, c ≠ '-' ∧ c ≠ '+' := by
    cases xs with
    | nil => simp
    | cons x xs =>
      intro c hc
      obtain rfl : x = c := Option.some.inj hc
      have hx := hplain x (by simp)
      exact ⟨hx '-' (by simp), hx '+' (by simp)⟩
  have hunder : withoutUnderscores? ' ' (xs ++ '.' :: ys) = some (xs ++ '.' :: ys) := by
    refine withoutUnderscores_self (fun c hc => ?_) (by decide)
    rw [List.mem_append, List.mem_cons] at hc
    rcases hc with h | rfl | h
    · exact hplain c (List.mem_append_left ys h) '_' (by simp)
    · decide
    · exact hplain c (List.mem_append_right xs h) '_' (by simp)
  have hword : ∀ w : List Char, '.' ∉ w →
      String.ofList ((xs ++ '.' :: ys).map Char.toLower) ≠ String.ofList w := by
    intro w hw he
    apply hw
    rw [← String.ofList_injective he]
    exact List.mem_map.mpr ⟨'.', by simp, by decide⟩
  dsimp only
  split
  · next h => exact absurd rfl (hsign '-' (by rw [h]; rfl)).1
  · next h => exact absurd rfl (hsign '+' (by rw [h]; rfl)).2
  · have h₁ := hword ['i', 'n', 'f'] (by decide)
    have h₂ := hword ['i', 'n', 'f', 'i', 'n', 'i', 't', 'y'] (by decide)
    have h₃ := hword ['n', 'a', 'n'] (by decide)
    dsimp only
    rw [if_neg (not_or.mpr ⟨h₁, h₂⟩), if_neg h₃, hunder]
    change (do let written ← readUnsigned? (xs ++ '.' :: ys); return written.value false) = _
    rw [hunsigned]
    rfl

end Offside.Number
