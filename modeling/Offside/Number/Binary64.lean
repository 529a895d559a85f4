/-!
Double precision numbers as exact rationals. `decode` reads a number off its bits and `nearest`
is the number closest to a quotient of naturals, a tie going to the even significand; every
conversion below is exact arithmetic followed by one such rounding.
-/

namespace Offside.Number

-- Powers are those of the core library, whatever else is imported.
attribute [default_instance 20000] instPowNat

/-- A double: not a number, an infinity, or `± m · 2 ^ q`. -/
inductive Double where
  | nan
  | infinite (negative : Bool)
  | finite (negative : Bool) (m : Nat) (q : Int)
  deriving DecidableEq, Repr

def decode (x : Float) : Double :=
  let bits : Nat := x.toBits.toNat
  let negative := bits / 2 ^ 63 == 1
  let field : Nat := bits / 2 ^ 52 % 2 ^ 11
  let fraction : Nat := bits % 2 ^ 52
  if field = 2047 then
    if fraction = 0 then .infinite negative else .nan
  else if field = 0 then .finite negative fraction (-1074)
  else .finite negative (fraction + 2 ^ 52) ((field : Int) - 1075)

def fromBits (negative : Bool) (bits : Nat) : Float :=
  Float.ofBits (((if negative then 2 ^ 63 else 0) + bits).toUInt64)

def infinity (negative : Bool) : Float := fromBits negative (2047 * 2 ^ 52)

def notANumber : Float := fromBits false (2047 * 2 ^ 52 + 2 ^ 51)

/-- `num / den` rounded to the nearest natural, a tie to the even one. -/
def roundDiv (num den : Nat) : Nat :=
  let quotient := num / den
  let twice := 2 * (num % den)
  if twice < den ∨ (twice = den ∧ quotient % 2 = 0) then quotient else quotient + 1

def bitLength (n : Nat) : Nat := if n = 0 then 0 else n.log2 + 1

/-- `num / (den · 2 ^ q)` rounded to the nearest natural. -/
def scaledRound (num den : Nat) (q : Int) : Nat :=
  if 0 ≤ q then roundDiv num (den * Nat.pow 2 q.toNat)
  else roundDiv (num * Nat.pow 2 (-q).toNat) den

/-- The double nearest `num / den`, for a positive `den`; none when it is beyond the largest. -/
def nearest? (negative : Bool) (num den : Nat) : Option Float :=
  if num = 0 then some (fromBits negative 0)
  else
    -- the exponent that leaves 53 or 54 significant bits, then the one that leaves 53
    let guess := max ((bitLength num : Int) - bitLength den - 53) (-1074)
    let q := if 2 ^ 53 ≤ scaledRound num den guess then guess + 1 else guess
    let m := scaledRound num den q
    -- rounding up may reach the next power of two
    let (m, q) := if m = 2 ^ 53 then (2 ^ 52, q + 1) else (m, q)
    if 971 < q then none
    else if m < 2 ^ 52 then some (fromBits negative m)
    else some (fromBits negative ((q + 1075).toNat * 2 ^ 52 + (m - 2 ^ 52)))

def nearestOrInfinity (negative : Bool) (num den : Nat) : Float :=
  (nearest? negative num den).getD (infinity negative)

/-- The double nearest an integer; none when it is beyond the largest. -/
def ofInt? (n : Int) : Option Float := nearest? (n < 0) n.natAbs 1

/-- The quotient of two integers, the second not zero. -/
def quotient? (a b : Int) : Option Float :=
  nearest? ((a < 0) != (b < 0)) a.natAbs b.natAbs

def isNaN (x : Float) : Bool := decode x == .nan

def isInfinite (x : Float) : Bool :=
  match decode x with
  | .infinite _ => true
  | _ => false

def isFinite (x : Float) : Bool := !isNaN x && !isInfinite x

def isNegative (x : Float) : Bool :=
  match decode x with
  | .infinite negative => negative
  | .finite negative _ _ => negative
  | .nan => false

def signed (negative : Bool) (n : Nat) : Int := if negative then -(n : Int) else n

def wholePart (m : Nat) (q : Int) : Nat :=
  if 0 ≤ q then m * Nat.pow 2 q.toNat else m / Nat.pow 2 (-q).toNat

def hasFraction (m : Nat) (q : Int) : Bool := q < 0 && m % Nat.pow 2 (-q).toNat != 0

def truncate? (x : Float) : Option Int :=
  match decode x with
  | .finite negative m q => some (signed negative (wholePart m q))
  | _ => none

def floor? (x : Float) : Option Int :=
  match decode x with
  | .finite negative m q =>
    some (signed negative (wholePart m q + if negative && hasFraction m q then 1 else 0))
  | _ => none

def ceiling? (x : Float) : Option Int :=
  match decode x with
  | .finite negative m q =>
    some (signed negative (wholePart m q + if !negative && hasFraction m q then 1 else 0))
  | _ => none

/-- Compares an integer with a double exactly; none against a NaN. -/
def compareInt? (n : Int) (x : Float) : Option Ordering :=
  match decode x with
  | .nan => none
  | .infinite negative => some (if negative then .gt else .lt)
  | .finite negative m q =>
    if 0 ≤ q then some (compare n (signed negative (m * Nat.pow 2 q.toNat)))
    else some (compare (n * Nat.pow 2 (-q).toNat) (signed negative m))

/-- The remainder with the dividend's sign; none where there is no such number. -/
def remainder? (x y : Float) : Option Float :=
  match decode x, decode y with
  | .nan, _ => some x
  | _, .nan => some y
  | .infinite _, _ => none
  | .finite _ _ _, .infinite _ => some x
  | .finite negative m q, .finite _ m' q' =>
    if m' = 0 then none
    else
      let low := min q q'
      let r := m * Nat.pow 2 (q - low).toNat % (m' * Nat.pow 2 (q' - low).toNat)
      if low ≤ 0 then some (nearestOrInfinity negative r (Nat.pow 2 (-low).toNat))
      else some (nearestOrInfinity negative (r * Nat.pow 2 low.toNat) 1)

/-- Rounds to an integer, a half going away from zero. The half is added in double precision. -/
def roundAway? (x : Float) : Option Int :=
  (floor? (x.abs + 0.5)).map fun n => if isNegative x then -n else n

inductive Rounded where
  | value (x : Float)
  | tooLarge

/-- Rounds to `digits` decimal places, a tie going to the even digit; a negative count rounds to
tens, hundreds and so on. -/
def roundTo (x : Float) (digits : Int) : Rounded :=
  match decode x with
  | .finite negative m q =>
    if 323 < digits then .value x
    else if digits < -308 then .value (fromBits negative 0)
    else
      -- the number is num / den, and `units` is the nearest multiple of 10 ^ (-digits)
      let num := if 0 ≤ q then m * Nat.pow 2 q.toNat else m
      let den := if 0 ≤ q then 1 else Nat.pow 2 (-q).toNat
      let units :=
        if 0 ≤ digits then roundDiv (num * Nat.pow 10 digits.toNat) den
        else roundDiv num (den * Nat.pow 10 (-digits).toNat)
      let rounded :=
        if 0 ≤ digits then nearest? negative units (Nat.pow 10 digits.toNat)
        else nearest? negative (units * Nat.pow 10 (-digits).toNat) 1
      match rounded with
      | some y => .value y
      | none => .tooLarge
  | _ => .value x

end Offside.Number
