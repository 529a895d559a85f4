import Offside.Number.Shortest
import Offside.Number.Numeral
import Offside.Text.Digit
import Offside.Text.Blank

/-!
Texts of floating point numbers. Which digits are written is settled by `shortest`; where they
stand is settled by a `FloatLayout`.
-/

namespace Offside.Number

/-- How the digits of a number are laid out: positionally when the exponent of the leading digit
lies from `leastExponent` to below `exponentBound`, else with an exponent of at least
`exponentWidth` digits. -/
structure FloatLayout where
  leastExponent : Int
  exponentBound : Int
  exponentWidth : Nat
  nan : String
  infinity : String
  negativeInfinity : String

/-- Numbers from 0.0001 to below 10 ^ 16 are positional. -/
def floatLayout : FloatLayout := ⟨-4, 16, 2, "nan", "inf", "-inf"⟩

def padLeft (width : Nat) (fill : Char) (cs : List Char) : List Char :=
  List.replicate (width - cs.length) fill ++ cs

/-- The digits of a decimal without the zeros at their end, and the exponent of the first. -/
def Decimal.normal (d : Decimal) : List Char × Int :=
  let ds := natNumeral d.digits
  let kept := (ds.reverse.dropWhile (· == '0')).reverse
  (kept, d.exponent + ds.length - 1)

/-- Digits with the point in its place; at least one digit stands on either side of it. -/
def positional (ds : List Char) (exponent : Int) : List Char :=
  if exponent < 0 then ['0', '.'] ++ List.replicate (-exponent - 1).toNat '0' ++ ds
  else
    let whole := exponent.toNat + 1
    if ds.length ≤ whole then ds ++ List.replicate (whole - ds.length) '0' ++ ['.', '0']
    else ds.take whole ++ ['.'] ++ ds.drop whole

def scientific (layout : FloatLayout) (ds : List Char) (exponent : Int) : List Char :=
  let mantissa := match ds with
    | [] => []
    | [d] => [d]
    | d :: rest => d :: '.' :: rest
  let sign := if exponent < 0 then '-' else '+'
  mantissa ++ ['e', sign] ++ padLeft layout.exponentWidth '0' (natNumeral exponent.natAbs)

def FloatLayout.render (layout : FloatLayout) (x : Float) : String :=
  match decode x with
  | .nan => layout.nan
  | .infinite negative => if negative then layout.negativeInfinity else layout.infinity
  | .finite negative m q =>
    let body :=
      if m = 0 then ['0', '.', '0']
      else
        let (ds, exponent) := (shortest m q).normal
        if layout.leastExponent ≤ exponent ∧ exponent < layout.exponentBound then
          positional ds exponent
        else scientific layout ds exponent
    String.ofList (if negative then '-' :: body else body)

def floatText (x : Float) : String := floatLayout.render x

/-- A decimal number as written: digits, how many of them stand after the point, exponent. -/
structure Written where
  digits : List Char
  places : Nat
  exponent : Int

/-- The value of a written decimal. Beyond any double the exponent decides alone. -/
def Written.value (negative : Bool) (w : Written) : Float :=
  let ds := w.digits.dropWhile (· == '0')
  let exponent := w.exponent - w.places
  if ds.isEmpty then fromBits negative 0
  else if 400 < exponent + ds.length then infinity negative
  else if exponent + ds.length < -400 then fromBits negative 0
  else if 0 ≤ exponent then nearestOrInfinity negative (ofDigits ds * Nat.pow 10 exponent.toNat) 1
  else nearestOrInfinity negative (ofDigits ds) (Nat.pow 10 (-exponent).toNat)

/-- ASCII digits in place of decimal digits of any script. -/
def asciiDigit (c : Char) : Char :=
  match Text.decimalValue? c with
  | some n => Char.ofNat (0x30 + n)
  | none => c

/-- Removes underscores, each of which has to stand between two digits. -/
def withoutUnderscores? (previous : Char) : List Char → Option (List Char)
  | [] => if previous = '_' then none else some []
  | c :: rest =>
    if c = '_' then
      if previous.isDigit then withoutUnderscores? c rest else none
    else if previous = '_' ∧ !c.isDigit then none
    else (withoutUnderscores? c rest).map (c :: ·)

def readExponent? : List Char → Option Int
  | [] => some 0
  | e :: rest =>
    if e = 'e' ∨ e = 'E' then readInteger? rest else none

/-- Reads digits with an optional point and exponent. -/
def readUnsigned? (cs : List Char) : Option Written :=
  let whole := cs.takeWhile Char.isDigit
  let (fraction, rest) := match cs.dropWhile Char.isDigit with
    | '.' :: more => (more.takeWhile Char.isDigit, more.dropWhile Char.isDigit)
    | rest => ([], rest)
  if whole.isEmpty && fraction.isEmpty then none
  else (readExponent? rest).map fun exponent => ⟨whole ++ fraction, fraction.length, exponent⟩

/-- Blanks that may stand around a number; the characters that separate records may not. -/
def isPadding (c : Char) : Bool := Text.isBlank c && !(0x1C ≤ c.toNat && c.toNat ≤ 0x1F)

/-- Reads the text of a number: a decimal, an infinity or `nan` in any case, with an optional sign
and padding around it. -/
def readFloat? (cs : List Char) : Option Float :=
  let cs := ((cs.dropWhile isPadding).reverse.dropWhile isPadding).reverse.map asciiDigit
  let (negative, body) := match cs with
    | '-' :: rest => (true, rest)
    | '+' :: rest => (false, rest)
    | rest => (false, rest)
  let word := String.ofList (body.map Char.toLower)
  if word = "inf" ∨ word = "infinity" then some (infinity negative)
  else if word = "nan" then some notANumber
  else do
    let plain ← withoutUnderscores? ' ' body
    let written ← readUnsigned? plain
    return written.value negative

end Offside.Number
