/-!
Characters by their code points. A text of the language may hold single surrogates, which are no
characters. The code points U+CD800 to U+CDFFF stand for them, in a plane where no character is.
-/

namespace Offside.Text

/-- Whether a character stands for a surrogate. -/
def isSurrogate (c : Char) : Bool := 0xCD800 ≤ c.toNat && c.toNat < 0xCE000

/-- How far a surrogate is from the character that stands for it. -/
def surrogateShift : Nat := 0xC0000

def codePoint (c : Char) : Nat := if isSurrogate c then c.toNat - surrogateShift else c.toNat

def ofCodePoint (n : Nat) : Char :=
  Char.ofNat (if 0xD800 ≤ n ∧ n < 0xE000 then n + surrogateShift else n)

theorem ofCodePoint_low {n : Nat} (h : n < 0xD800) : ofCodePoint n = Char.ofNat n := by
  unfold ofCodePoint
  rw [if_neg (by omega)]

/-- A surrogate and every character but the ones that stand for surrogates can be told from its
code point. -/
theorem codePoint_ofCodePoint {n : Nat} (hlast : n ≤ 0x10FFFF)
    (hfree : ¬ (0xCD800 ≤ n ∧ n < 0xCE000)) : codePoint (ofCodePoint n) = n := by
  have hvalid {m : Nat} (hm : m.isValidChar) : (Char.ofNat m).toNat = m := by
    rw [Char.ofNat, dif_pos hm]
    rfl
  unfold ofCodePoint codePoint isSurrogate
  by_cases h : 0xD800 ≤ n ∧ n < 0xE000
  · rw [if_pos h, hvalid (by unfold Nat.isValidChar surrogateShift; omega)]
    have hrange : (0xCD800 ≤ n + surrogateShift && n + surrogateShift < 0xCE000) = true := by
      rw [Bool.and_eq_true, decide_eq_true_iff, decide_eq_true_iff]
      unfold surrogateShift
      omega
    rw [if_pos hrange, Nat.add_sub_cancel]
  · rw [if_neg h, hvalid (by unfold Nat.isValidChar; omega)]
    have hrange : ¬ (0xCD800 ≤ n && n < 0xCE000) = true := by simpa using hfree
    exact if_neg hrange

theorem ofCodePoint_codePoint (c : Char) : ofCodePoint (codePoint c) = c := by
  have hvalid : c.toNat < 0xD800 ∨ 0xDFFF < c.toNat ∧ c.toNat < 0x110000 := c.valid
  unfold codePoint
  by_cases h : isSurrogate c = true
  · have hrange : 0xCD800 ≤ c.toNat ∧ c.toNat < 0xCE000 := by simpa [isSurrogate] using h
    unfold ofCodePoint surrogateShift
    rw [if_pos h, if_pos (by omega), Nat.sub_add_cancel (by omega), Char.ofNat_toNat]
  · unfold ofCodePoint
    rw [if_neg h, if_neg (by omega), Char.ofNat_toNat]

def codePoints (s : String) : List Nat := s.toList.map codePoint

/-- Whether a text stands before another one, by code points. -/
def before (s t : String) : Bool := codePoints s < codePoints t

theorem codePoints_injective {s t : String} (h : codePoints s = codePoints t) : s = t := by
  have hchars : (codePoints s).map ofCodePoint = (codePoints t).map ofCodePoint := by rw [h]
  unfold codePoints at hchars
  have hback : ofCodePoint ∘ codePoint = id := funext ofCodePoint_codePoint
  rw [List.map_map, List.map_map, hback, List.map_id, List.map_id] at hchars
  exact String.toList_inj.mp hchars

end Offside.Text
