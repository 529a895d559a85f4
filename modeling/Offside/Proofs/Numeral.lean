import Mathlib.Data.Bool.AllAny
import Mathlib.Data.List.TakeWhile
import Mathlib.Tactic
import Offside.Proofs.Grammar
import Offside.Text.Utf8

/-!
Numerals. A run of ASCII digits is read as the number it denotes, with or without a point, and what
is written for an integer is its canonical numeral. That long integers are converted in chunks of
digits, to and fro, makes no difference.
-/

namespace Offside.Number

theorem digit_mem {c : Char} (h : c.isDigit = true) :
    c ∈ ['0', '1', '2', '3', '4', '5', '6', '7', '8', '9'] := by
  simp only [Char.isDigit, Bool.and_eq_true, decide_eq_true_eq] at h
  obtain ⟨h₁, h₂⟩ := h
  have h₁ : 48 ≤ c.toNat := h₁
  have h₂ : c.toNat ≤ 57 := h₂
  have hc : c = Char.ofNat c.toNat := (Char.ofNat_toNat c).symm
  rw [hc]
  generalize c.toNat = n at h₁ h₂
  interval_cases n <;> decide

theorem digit_forall {P : Char → Prop} [DecidablePred P] {c : Char} (h : c.isDigit = true)
    (hP : ['0', '1', '2', '3', '4', '5', '6', '7', '8', '9'].all (P ·) = true) : P c :=
  List.all_iff_forall_prop.mp hP c (digit_mem h)

/-! ### Digits in chunks -/

theorem ofDigits_eq (ds : List Char) : ofDigits ds = Nat.ofDigitChars 10 ds 0 := by
  simp only [ofDigits, Nat.ofDigitChars_eq_foldl, digitValue, Nat.mul_comm]
  rfl

theorem ofDigits_append (ds es : List Char) :
    ofDigits (ds ++ es) = ofDigits ds * 10 ^ es.length + ofDigits es := by
  rw [ofDigits_eq, ofDigits_eq, ofDigits_eq, Nat.ofDigitChars_append,
    Nat.ofDigitChars_eq_ofDigitChars_zero, Nat.mul_comm]

/-- After some chunks the number of what they hold is read. -/
theorem readDigits_take (ds : List Char) (k : Nat) :
    (List.range' 0 k chunkLength).foldl
        (fun n start =>
          let chunk := (ds.drop start).take chunkLength
          n * Nat.pow 10 chunk.length + ofDigits chunk) 0 =
      ofDigits (ds.take (chunkLength * k)) := by
  induction k with
  | zero => simp [ofDigits]
  | succ k ih =>
    rw [List.range'_concat, List.foldl_append, ih]
    simp only [List.foldl_cons, List.foldl_nil, Nat.zero_add, Nat.pow_eq]
    rw [← ofDigits_append, ← List.take_add, Nat.mul_succ]

theorem readDigits_eq (ds : List Char) : readDigits ds = ofDigits ds := by
  rw [readDigits, readDigits_take, List.take_of_length_le]
  have hlength : 0 < chunkLength := by decide
  have hdiv := Nat.div_add_mod (ds.length + chunkLength - 1) chunkLength
  have hmod := Nat.mod_lt (ds.length + chunkLength - 1) hlength
  omega

theorem readInteger_digits {ds : List Char} (h : IsDigits ds) :
    readInteger? ds = some (ofDigits ds : Int) := by
  obtain ⟨hne, hd⟩ := h
  cases ds with
  | nil => exact absurd rfl hne
  | cons d rest =>
    have hs : d ≠ '-' ∧ d ≠ '+' :=
      digit_forall (P := fun d => d ≠ '-' ∧ d ≠ '+') (hd d List.mem_cons_self) (by decide)
    have hall : (d :: rest).all Char.isDigit = true := List.all_eq_true.mpr hd
    unfold readInteger?
    split
    · next negative ds heq =>
      split at heq
      · next h => exact absurd (List.cons.inj h).1 hs.1
      · next h => exact absurd (List.cons.inj h).1 hs.2
      · cases heq
        simp [hall, readDigits_eq]

/-! ### Canonical numerals -/

theorem natNumeral_digits (n : Nat) : IsDigits (natNumeral n) :=
  ⟨Nat.toDigits_ne_nil, fun _ hc => Nat.isDigit_of_mem_toDigits (by decide) (by decide) hc⟩

theorem ofDigits_natNumeral (n : Nat) : ofDigits (natNumeral n) = n := by
  rw [ofDigits_eq, natNumeral, Nat.ofDigitChars_ten_toDigits]

/-- Digits without a leading zero, unless that is all. -/
def Trimmed (ds : List Char) : Prop := ∀ more, ds = '0' :: more → more = []

/-- A numeral begins with a zero only if it is one. -/
theorem natNumeral_trimmed (n : Nat) : Trimmed (natNumeral n) := by
  induction n using Nat.strong_induction_on with
  | _ n ih =>
    intro ds h
    by_cases hn : n < 10
    · rw [natNumeral, Nat.toDigits_of_lt_base hn] at h
      exact (List.cons.inj h).2.symm
    · have hsplit : natNumeral n = natNumeral (n / 10) ++ [(n % 10).digitChar] :=
        Nat.toDigits_of_base_le (by decide) (by omega)
      obtain ⟨d, front, hfront⟩ := List.exists_cons_of_ne_nil (natNumeral_digits (n / 10)).1
      rw [hsplit, hfront] at h
      have hd : d = '0' := (List.cons.inj h).1
      have hnil : front = [] := ih (n / 10) (by omega) front (hd ▸ hfront)
      have hzero : n / 10 = 0 := by
        rw [← ofDigits_natNumeral (n / 10), hfront, hd, hnil]
        rfl
      omega

theorem natNumeral_begin {n : Nat} (hn : 0 < n) (more : List Char) : natNumeral n ≠ '0' :: more := by
  intro h
  have hnil := natNumeral_trimmed n more h
  have hvalue := ofDigits_natNumeral n
  rw [h, hnil] at hvalue
  exact hn.ne hvalue

/-- Digits without leading zeros are the numeral of their number. -/
theorem natNumeral_ofDigits {ds : List Char} (h : IsDigits ds) (hz : Trimmed ds) :
    natNumeral (ofDigits ds) = ds := by
  induction ds using List.reverseRecOn with
  | nil => exact absurd rfl h.1
  | append_singleton front d ih =>
    have hd : (digitValue d).digitChar = d ∧ digitValue d < 10 :=
      digit_forall (P := fun d => (digitValue d).digitChar = d ∧ digitValue d < 10)
        (h.2 d (by simp)) (by decide)
    have hlast : natNumeral (digitValue d) = [d] := by
      rw [natNumeral, Nat.toDigits_of_lt_base hd.2, hd.1]
    have hnumber : ofDigits (front ++ [d]) = 10 * ofDigits front + digitValue d := by
      simp [ofDigits, Nat.mul_comm]
    rw [hnumber]
    by_cases hfront : front = []
    · simpa [hfront, ofDigits] using hlast
    · have hmore : ∀ more, front ≠ '0' :: more := by
        rintro more rfl
        simpa using hz (more ++ [d]) rfl
      have hnumeral := ih ⟨hfront, fun c hc => h.2 c (List.mem_append_left _ hc)⟩
        fun more hmore' => absurd hmore' (hmore more)
      have hpos : 0 < ofDigits front := by
        refine Nat.pos_of_ne_zero fun hzero => hmore [] ?_
        rw [← hnumeral, hzero]
        rfl
      rw [natNumeral, ← Nat.toDigits_append_toDigits (by decide) hpos hd.2]
      exact congrArg₂ (· ++ ·) hnumeral hlast

/-! ### Numerals in chunks -/

theorem chunkBase_eq : chunkBase = 10 ^ chunkLength := by decide +kernel

theorem chunkBase_pos : 0 < chunkBase := by decide

theorem ofDigits_zeros (k : Nat) (ds : List Char) :
    ofDigits (List.replicate k '0' ++ ds) = ofDigits ds := by
  have hzeros : ofDigits (List.replicate k '0') = 0 := by
    rw [ofDigits_eq, Nat.ofDigitChars_replicate_zero, Nat.mul_zero]
  rw [ofDigits_append, hzeros, Nat.zero_mul, Nat.zero_add]

theorem ofDigits_paddedChunk (n : Nat) : ofDigits (paddedChunk n) = n := by
  rw [paddedChunk, List.leftpad, ofDigits_zeros, ofDigits_natNumeral]

theorem paddedChunk_digits (n : Nat) : IsDigits (paddedChunk n) := by
  obtain ⟨hne, hdigits⟩ := natNumeral_digits n
  refine ⟨by simp [paddedChunk, List.leftpad, hne], fun c hc => ?_⟩
  rcases List.mem_append.mp hc with hc | hc
  · rw [List.eq_of_mem_replicate hc]
    decide
  · exact hdigits c hc

theorem paddedChunk_length {n : Nat} (h : n < chunkBase) : (paddedChunk n).length = chunkLength := by
  have hlength : (natNumeral n).length ≤ chunkLength :=
    (Nat.length_toDigits_le_iff (by decide) (by decide)).mpr (chunkBase_eq ▸ h)
  rw [paddedChunk, List.length_leftpad, Nat.max_eq_left hlength]

/-- Above its lowest chunk a numeral is that of what the lowest chunk leaves. -/
theorem natNumeral_split {n : Nat} (h : chunkBase ≤ n) :
    natNumeral n = natNumeral (n / chunkBase) ++ paddedChunk (n % chunkBase) := by
  have htop : 0 < n / chunkBase := Nat.div_pos h chunkBase_pos
  have hlow := paddedChunk_digits (n % chunkBase)
  have hdigits : IsDigits (natNumeral (n / chunkBase) ++ paddedChunk (n % chunkBase)) := by
    refine ⟨by simp [hlow.1], fun c hc => ?_⟩
    rcases List.mem_append.mp hc with hc | hc
    · exact (natNumeral_digits _).2 c hc
    · exact hlow.2 c hc
  have htrimmed : Trimmed (natNumeral (n / chunkBase) ++ paddedChunk (n % chunkBase)) := by
    obtain ⟨d, front, hfront⟩ := List.exists_cons_of_ne_nil (natNumeral_digits (n / chunkBase)).1
    intro more hmore
    rw [hfront] at hmore
    exact absurd ((List.cons.inj hmore).1 ▸ hfront) (natNumeral_begin htop front)
  have hvalue : ofDigits (natNumeral (n / chunkBase) ++ paddedChunk (n % chunkBase)) = n := by
    rw [ofDigits_append, ofDigits_natNumeral, ofDigits_paddedChunk,
      paddedChunk_length (Nat.mod_lt n chunkBase_pos), ← chunkBase_eq, Nat.div_add_mod']
  rw [← natNumeral_ofDigits hdigits htrimmed, hvalue]

theorem chunks_ne_nil {n : Nat} (h : 0 < n) : chunks n ≠ [] := by
  rw [chunks, if_neg h.ne']
  exact List.cons_ne_nil _ _

/-- Put together from its chunks, a number has its numeral. -/
theorem longNumeral_eq {n : Nat} (h : 0 < n) : longNumeral n = natNumeral n := by
  induction n using Nat.strong_induction_on with
  | _ n ih =>
    have hchunks : chunks n = n % chunkBase :: chunks (n / chunkBase) := by
      rw [chunks, if_neg h.ne']
    by_cases hsmall : n < chunkBase
    · have hnone : chunks 0 = [] := by rw [chunks, if_pos rfl]
      rw [longNumeral, hchunks, Nat.div_eq_of_lt hsmall, hnone, Nat.mod_eq_of_lt hsmall]
      exact List.append_nil _
    · have hle := Nat.le_of_not_lt hsmall
      have htop : 0 < n / chunkBase := Nat.div_pos hle chunkBase_pos
      have hrest := ih (n / chunkBase) (Nat.div_lt_self h (by decide)) htop
      obtain ⟨top, rest, hreverse⟩ := List.exists_cons_of_ne_nil
        (mt List.reverse_eq_nil_iff.mp (chunks_ne_nil htop))
      rw [longNumeral, hreverse] at hrest
      rw [longNumeral, hchunks, List.reverse_cons, hreverse, natNumeral_split hle, ← hrest]
      simp

/-- However it is put together, what is written for an integer is its canonical numeral. -/
theorem numeral_eq (n : Int) : numeral n = String.ofList (numeralChars n) := by
  rw [numeral]
  congr 1
  split_ifs with hsmall hneg
  · rfl
  · obtain ⟨m, rfl⟩ := Int.eq_negSucc_of_lt_zero hneg
    rw [longNumeral_eq (by simp)]
    rfl
  · obtain ⟨m, rfl⟩ := Int.eq_ofNat_of_zero_le (Int.not_lt.mp hneg)
    have hpos : 0 < m := by
      have := chunkBase_pos
      omega
    rw [longNumeral_eq (by simpa using hpos)]
    rfl

/-! ### Integers and their texts -/

/-- The numeral of an integer: digits without superfluous zeros, signed if it is negative. -/
def IsNumeral (n : Int) (cs : List Char) : Prop :=
  ∃ ds, cs = (if n < 0 then '-' :: ds else ds) ∧ IsDigits ds ∧ Trimmed ds ∧ ofDigits ds = n.natAbs

/-- The texts that denote integers: at most one sign, and digits. -/
inductive Denotes : List Char → Int → Prop
  | plain {ds : List Char} : IsDigits ds → Denotes ds (ofDigits ds)
  | plus {ds : List Char} : IsDigits ds → Denotes ('+' :: ds) (ofDigits ds)
  | minus {ds : List Char} : IsDigits ds → Denotes ('-' :: ds) (-(ofDigits ds : Int))

/-- A run of digits without its leading zeros, but for the last of zeros only. -/
def withoutZeros (ds : List Char) : List Char :=
  match ds.dropWhile (· == '0') with
  | [] => ['0']
  | more => more

theorem numeralChars_eq (n : Int) :
    numeralChars n = if n < 0 then '-' :: natNumeral n.natAbs else natNumeral n.natAbs := by
  cases n with
  | ofNat n => rfl
  | negSucc n => rw [if_pos (Int.negSucc_lt_zero n)]; rfl

theorem numeral_isNumeral (n : Int) : IsNumeral n (numeral n).toList :=
  ⟨natNumeral n.natAbs, by rw [numeral_eq, String.toList_ofList, numeralChars_eq],
    natNumeral_digits _, natNumeral_trimmed _, ofDigits_natNumeral _⟩

theorem numeral_encodable (n : Int) : Text.IsEncodable (numeral n) := by
  obtain ⟨ds, hcs, ⟨-, hdigits⟩, -⟩ := numeral_isNumeral n
  have hplain : ∀ c ∈ ds, Text.isSurrogate c = false := fun c hc =>
    digit_forall (P := fun c => Text.isSurrogate c = false) (hdigits c hc) (by decide)
  unfold Text.IsEncodable
  rw [hcs]
  split
  · exact List.forall_mem_cons.mpr ⟨by decide, hplain⟩
  · exact hplain

theorem numeral_unique {n : Int} {cs : List Char} (h : IsNumeral n cs) :
    cs = (numeral n).toList := by
  obtain ⟨ds, hcs, hdigits, htrimmed, hvalue⟩ := h
  rw [numeral_eq, String.toList_ofList, numeralChars_eq, ← hvalue,
    natNumeral_ofDigits hdigits htrimmed, hcs]

/-- A numeral of more than a chunk goes on, after that of the chunks above, with all the digits of
its lowest chunk. -/
theorem numeral_lowest {n : Int} (h : chunkBase ≤ n.natAbs) :
    (numeral n).toList =
      (numeral (n.tdiv chunkBase)).toList ++ paddedChunk (n.natAbs % chunkBase) := by
  have habs : (n.tdiv chunkBase).natAbs = n.natAbs / chunkBase := Int.natAbs_tdiv n chunkBase
  have htop : 0 < n.natAbs / chunkBase := Nat.div_pos h chunkBase_pos
  have hsign : n.tdiv chunkBase < 0 ↔ n < 0 := by
    rcases lt_or_ge n 0 with hn | hn
    · have := Int.tdiv_nonneg (Int.neg_nonneg.mpr hn.le) (Int.natCast_nonneg chunkBase)
      rw [Int.neg_tdiv] at this
      omega
    · have := Int.tdiv_nonneg hn (Int.natCast_nonneg chunkBase)
      omega
  rw [numeral_eq, numeral_eq, String.toList_ofList, String.toList_ofList, numeralChars_eq,
    numeralChars_eq, habs, natNumeral_split h]
  by_cases hn : n < 0
  · rw [if_pos hn, if_pos (hsign.mpr hn), List.cons_append]
  · rw [if_neg hn, if_neg (mt hsign.mp hn)]

/-- What is read after the sign. -/
theorem unsigned_iff (negative : Bool) (ds : List Char) (n : Int) :
    (if ds.isEmpty || !ds.all Char.isDigit then none
      else some (if negative then -(readDigits ds : Int) else readDigits ds)) = some n ↔
      IsDigits ds ∧ (if negative then -(ofDigits ds : Int) else ofDigits ds) = n := by
  have hbad : (ds.isEmpty || !ds.all Char.isDigit) = true ↔ ¬ IsDigits ds := by
    simp [IsDigits, or_iff_not_imp_left]
  rw [readDigits_eq]
  by_cases hds : IsDigits ds
  · rw [if_neg (by rw [hbad]; exact not_not.mpr hds), Option.some_inj, and_iff_right hds]
  · rw [if_pos (hbad.mpr hds)]
    exact iff_of_false (by simp) fun h => hds h.1

/-- Exactly the texts that denote integers are read, each as what it denotes. -/
theorem readInteger_iff (cs : List Char) (n : Int) : readInteger? cs = some n ↔ Denotes cs n := by
  constructor
  · intro h
    unfold readInteger? at h
    split at h
    next negative ds heq =>
      obtain ⟨hds, rfl⟩ := (unsigned_iff negative ds n).mp h
      split at heq <;> cases heq
      · exact .minus hds
      · exact .plus hds
      · exact .plain hds
  · rintro (hds | hds | hds)
    · exact readInteger_digits hds
    · exact (unsigned_iff false _ _).mpr ⟨hds, rfl⟩
    · exact (unsigned_iff true _ _).mpr ⟨hds, rfl⟩

theorem readInteger_numeral (n : Int) : readInteger? (numeral n).toList = some n := by
  rw [readInteger_iff, numeral_eq, String.toList_ofList]
  cases n with
  | ofNat n =>
    have h := Denotes.plain (natNumeral_digits n)
    rwa [ofDigits_natNumeral] at h
  | negSucc n =>
    have h := Denotes.minus (natNumeral_digits (n + 1))
    rwa [ofDigits_natNumeral] at h

theorem withoutZeros_trimmed (ds : List Char) : Trimmed (withoutZeros ds) := by
  unfold withoutZeros
  split
  · exact fun more hmore => (List.cons.inj hmore).2.symm
  · next hne =>
    intro more hmore
    have hhead := List.head_dropWhile_not (· == '0') (by rw [hmore]; exact List.cons_ne_nil _ _)
    simp [hmore] at hhead

theorem withoutZeros_digits {ds : List Char} (h : IsDigits ds) : IsDigits (withoutZeros ds) := by
  unfold withoutZeros
  split
  · exact ⟨List.cons_ne_nil _ _, by simp⟩
  · next hne => exact ⟨hne, fun c hc => h.2 c ((List.dropWhile_suffix _).subset hc)⟩

theorem ofDigits_withoutZeros (ds : List Char) : ofDigits (withoutZeros ds) = ofDigits ds := by
  have hzeros : ds.takeWhile (· == '0') = List.replicate (ds.takeWhile (· == '0')).length '0' :=
    List.eq_replicate_of_mem fun c hc => by simpa using List.mem_takeWhile_imp hc
  have hvalue : ofDigits (ds.dropWhile (· == '0')) = ofDigits ds := by
    rw [← ofDigits_zeros (ds.takeWhile (· == '0')).length, ← hzeros, List.takeWhile_append_dropWhile]
  unfold withoutZeros
  split
  · next hall =>
    rw [hall] at hvalue
    exact hvalue
  · exact hvalue

/-- Integers and their texts, at every size. The numeral of an integer is all that can be written
for it, and each chunk below its highest keeps all its digits. Exactly the texts that denote
integers are read, so that an integer is read back from its numeral, and digits are written back
without their leading zeros. -/
theorem integer_text_exact :
    (∀ (n : Int) (cs : List Char), cs = (numeral n).toList ↔ IsNumeral n cs) ∧
      (∀ n : Int, chunkBase ≤ n.natAbs → ∃ low,
        (numeral n).toList = (numeral (n.tdiv chunkBase)).toList ++ low ∧
          low.length = chunkLength ∧ IsDigits low ∧ ofDigits low = n.natAbs % chunkBase) ∧
      (∀ (cs : List Char) (n : Int), readInteger? cs = some n ↔ Denotes cs n) ∧
      (∀ n : Int, readInteger? (numeral n).toList = some n) ∧
      ∀ ds : List Char, IsDigits ds →
        ∃ n, readInteger? ds = some n ∧ (numeral n).toList = withoutZeros ds := by
  refine ⟨fun n cs => ⟨?_, numeral_unique⟩, fun n h => ?_, readInteger_iff, readInteger_numeral,
    fun ds h => ⟨ofDigits ds, readInteger_digits h, ?_⟩⟩
  · rintro rfl
    exact numeral_isNumeral n
  · exact ⟨paddedChunk (n.natAbs % chunkBase), numeral_lowest h,
      paddedChunk_length (Nat.mod_lt _ chunkBase_pos), paddedChunk_digits _, ofDigits_paddedChunk _⟩
  · have hnumeral : IsNumeral (ofDigits ds) (withoutZeros ds) :=
      ⟨withoutZeros ds, (if_neg (Int.not_lt.mpr (Int.natCast_nonneg _))).symm,
        withoutZeros_digits h, withoutZeros_trimmed ds, ofDigits_withoutZeros ds⟩
    exact (numeral_unique hnumeral).symm

/-- A chunk of zeros is written in full, and zeros alone are one. -/
theorem zeros_text :
    (∃ low, (numeral (-(chunkBase * chunkBase : Nat))).toList = (numeral (-chunkBase)).toList ++ low ∧
        low.length = chunkLength ∧ ofDigits low = 0) ∧
      ∃ n, readInteger? ['0', '0'] = some n ∧ (numeral n).toList = ['0'] := by
  obtain ⟨-, hchunk, -, -, hread⟩ := integer_text_exact
  refine ⟨?_, hread ['0', '0'] ⟨List.cons_ne_nil _ _, List.all_eq_true.mp rfl⟩⟩
  obtain ⟨low, htext, hlength, -, hvalue⟩ :=
    hchunk (-(chunkBase * chunkBase : Nat)) (by decide +kernel)
  have hrest : (-((chunkBase * chunkBase : Nat) : Int)).tdiv chunkBase = -chunkBase := by
    decide +kernel
  rw [hrest] at htext
  refine ⟨low, htext, hlength, hvalue.trans ?_⟩
  decide +kernel

theorem withoutUnderscores_self {cs : List Char} (h : ∀ c ∈ cs, c ≠ '_') {previous : Char}
    (hp : previous ≠ '_') : withoutUnderscores? previous cs = some cs := by
  induction cs generalizing previous with
  | nil => simp [withoutUnderscores?, hp]
  | cons c rest ih =>
    have hc := h c List.mem_cons_self
    have hr := ih (fun x hx => h x (List.mem_cons_of_mem c hx)) hc
    simp [withoutUnderscores?, hc, hp, hr]

theorem readUnsigned_point {ds fs : List Char} (hd : IsDigits ds) (hf : IsDigits fs) :
    readUnsigned? (ds ++ '.' :: fs) = some ⟨ds ++ fs, fs.length, 0⟩ := by
  have h₁ : (ds ++ '.' :: fs).takeWhile Char.isDigit = ds := by
    rw [List.takeWhile_append_of_pos hd.2]
    simp
  have h₂ : (ds ++ '.' :: fs).dropWhile Char.isDigit = '.' :: fs := by
    rw [List.dropWhile_append_of_pos hd.2]
    simp
  have h₃ : fs.takeWhile Char.isDigit = fs := List.takeWhile_eq_self_iff.mpr hf.2
  have h₄ : fs.dropWhile Char.isDigit = [] := List.dropWhile_eq_nil_iff.mpr hf.2
  unfold readUnsigned?
  simp [h₁, h₂, h₃, h₄, hd.1, readExponent?]

private theorem dropWhile_none {p : Char → Bool} {cs : List Char} (h : ∀ c ∈ cs, p c = false) :
    cs.dropWhile p = cs := by
  cases cs with
  | nil => rfl
  | cons c rest => rw [List.dropWhile_cons, h c List.mem_cons_self, if_neg Bool.false_ne_true]

theorem trimmed_plain {cs : List Char} (hpad : ∀ c ∈ cs, isPadding c = false) :
    ((cs.dropWhile isPadding).reverse.dropWhile isPadding).reverse = cs := by
  have hrev : ∀ c ∈ cs.reverse, isPadding c = false := by
    intro c hc
    exact hpad c (List.mem_reverse.mp hc)
  rw [dropWhile_none hpad, dropWhile_none hrev, List.reverse_reverse]

theorem trimmed_self {cs : List Char} (hpad : ∀ c ∈ cs, isPadding c = false)
    (hascii : ∀ c ∈ cs, asciiDigit c = c) :
    ((cs.dropWhile isPadding).reverse.dropWhile isPadding).reverse.map asciiDigit = cs := by
  rw [trimmed_plain hpad]
  exact (List.map_congr_left (g := id) hascii).trans (List.map_id _)

theorem point_forall {P : Char → Prop} [DecidablePred P] {ds fs : List Char} (hd : IsDigits ds)
    (hf : IsDigits fs)
    (hP : ['0', '1', '2', '3', '4', '5', '6', '7', '8', '9'].all (P ·) = true) (hp : P '.') :
    ∀ c ∈ ds ++ '.' :: fs, P c := by
  intro c hc
  rcases List.mem_append.mp hc with hc | hc
  · exact digit_forall (hd.2 c hc) hP
  · rcases List.mem_cons.mp hc with rfl | hc
    · exact hp
    · exact digit_forall (hf.2 c hc) hP

theorem readFloat_point {ds fs : List Char} (hd : IsDigits ds) (hf : IsDigits fs) :
    readFloat? (ds ++ '.' :: fs) = some (Written.value false ⟨ds ++ fs, fs.length, 0⟩) := by
  have hpad := point_forall (P := fun c => isPadding c = false) hd hf (by decide) (by decide)
  have hascii := point_forall (P := fun c => asciiDigit c = c) hd hf (by decide) (by decide)
  have hunder := point_forall (P := fun c => c ≠ '_') hd hf (by decide) (by decide)
  have hlower := point_forall (P := fun c => c.toLower = c) hd hf (by decide) (by decide)
  have hplain := withoutUnderscores_self hunder (show ' ' ≠ '_' by decide)
  have htext := readUnsigned_point hd hf
  obtain ⟨d, rest, he⟩ := List.exists_cons_of_ne_nil (l := ds ++ '.' :: fs) (by simp)
  have hdigit : d.isDigit = true := by
    cases ds with
    | nil => exact absurd rfl hd.1
    | cons x ds =>
      rw [← (List.cons.inj he).1]
      exact hd.2 x List.mem_cons_self
  rw [he] at hpad hascii hlower hplain htext ⊢
  have hsign : d ≠ '-' ∧ d ≠ '+' :=
    digit_forall (P := fun d => d ≠ '-' ∧ d ≠ '+') hdigit (by decide)
  have hword : d ≠ 'i' ∧ d ≠ 'n' :=
    digit_forall (P := fun d => d ≠ 'i' ∧ d ≠ 'n') hdigit (by decide)
  have hmap : (d :: rest).map Char.toLower = d :: rest :=
    (List.map_congr_left (g := id) hlower).trans (List.map_id _)
  unfold readFloat?
  rw [trimmed_self hpad hascii]
  dsimp only
  split
  · next h => exact absurd (List.cons.inj h).1 hsign.1
  · next h => exact absurd (List.cons.inj h).1 hsign.2
  · have hne : ∀ w : List Char, w.head? ≠ some d →
        String.ofList (d :: rest) ≠ String.ofList w := by
      intro w hw he
      exact hw (by rw [← String.ofList_injective he, List.head?_cons])
    have h₁ := hne ['i', 'n', 'f'] (by simpa using hword.1.symm)
    have h₂ := hne ['i', 'n', 'f', 'i', 'n', 'i', 't', 'y'] (by simpa using hword.1.symm)
    have h₃ := hne ['n', 'a', 'n'] (by simpa using hword.2.symm)
    dsimp only
    rw [hmap, if_neg (not_or.mpr ⟨h₁, h₂⟩), if_neg h₃, hplain]
    change (do let written ← readUnsigned? (d :: rest); return written.value false) = _
    rw [htext]
    rfl

end Offside.Number
