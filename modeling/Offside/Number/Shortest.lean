import Offside.Number.Binary64

/-!
The fewest decimal digits that read back as a given double. Decimals with `n` digits form a
grid; the double's two neighbours on it are tried for `n` from 1 to 17, and the first grid with a
hit gives the digits, the nearer neighbour winning and a tie going to the even digit.
-/

namespace Offside.Number

structure Decimal where
  digits : Nat
  exponent : Int
  deriving DecidableEq, Repr

/-- The reals that round to `m · 2 ^ q`, over a common denominator: `low` and `high` bound them,
and the bounds themselves belong to them when `m` is even. -/
structure Basin where
  low : Nat
  value : Nat
  high : Nat
  den : Nat
  closed : Bool
  deriving DecidableEq, Repr

/-- Below a power of two the neighbour is half as far away as above it. -/
def basin (m : Nat) (q : Int) : Basin :=
  let narrow := m = 2 ^ 52 ∧ -1074 < q
  -- numerators over `2 ^ (2 - q)`
  let value := 4 * m
  let low := if narrow then value - 1 else value - 2
  let high := value + 2
  let shift := q - 2
  if 0 ≤ shift then
    let unit := Nat.pow 2 shift.toNat
    ⟨low * unit, value * unit, high * unit, 1, m % 2 == 0⟩
  else ⟨low, value, high, Nat.pow 2 (-shift).toNat, m % 2 == 0⟩

/-- Whether `num / den` lies in the basin; both sides are compared over the basin's denominator. -/
def Basin.has (b : Basin) (num den : Nat) : Bool :=
  let x := num * b.den
  if b.closed then b.low * den ≤ x && x ≤ b.high * den else b.low * den < x && x < b.high * den

def Decimal.fraction (d : Decimal) : Nat × Nat :=
  if 0 ≤ d.exponent then (d.digits * Nat.pow 10 d.exponent.toNat, 1)
  else (d.digits, Nat.pow 10 (-d.exponent).toNat)

/-- Distance of a fraction from the basin's value, over the product of the denominators. -/
def Basin.distance (b : Basin) (f : Nat × Nat) : Nat :=
  ((f.1 * b.den : Int) - b.value * f.2).natAbs

/-- The multiple of `10 ^ exponent` at or below the basin's value. -/
def Basin.below (b : Basin) (exponent : Int) : Nat :=
  if 0 ≤ exponent then b.value / (b.den * Nat.pow 10 exponent.toNat)
  else b.value * Nat.pow 10 (-exponent).toNat / b.den

/-- The better of the two neighbours on the grid of multiples of `10 ^ exponent`. -/
def Basin.onGrid? (b : Basin) (exponent : Int) : Option Decimal :=
  let lower := b.below exponent
  let down : Decimal := ⟨lower, exponent⟩
  let up : Decimal := ⟨lower + 1, exponent⟩
  let inDown := lower != 0 && b.has down.fraction.1 down.fraction.2
  let inUp := b.has up.fraction.1 up.fraction.2
  if inDown && inUp then
    let near := b.distance down.fraction
    let far := b.distance up.fraction
    if near < far || (near == far && lower % 2 == 0) then some down else some up
  else if inDown then some down
  else if inUp then some up
  else none

/-- The number of digits before the point: the least `k` with `value < 10 ^ k`, searched upward
from an estimate that is never too large. -/
def pointPlace (b : Basin) : Nat → Int → Int
  | 0, k => k
  | fuel + 1, k => if b.below k = 0 then k else pointPlace b fuel (k + 1)

def shortestFrom (b : Basin) (place : Int) : Nat → Nat → Decimal
  | 0, count => (b.onGrid? (place - count)).getD ⟨b.below (place - count), place - count⟩
  | fuel + 1, count =>
    match b.onGrid? (place - count) with
    | some d => d
    | none => shortestFrom b place fuel (count + 1)

/-- The shortest decimal that reads back as `m · 2 ^ q`, for a positive `m`. -/
def shortest (m : Nat) (q : Int) : Decimal :=
  let b := basin m q
  let size := (bitLength m : Int) + q
  -- 2 ^ (size - 1) ≤ value, and 10 ^ k ≤ 2 ^ (size - 1) for the estimate below
  let estimate := if 0 < size then (size - 1) * 30102 / 100000 else (size - 1) * 30103 / 100000 - 1
  shortestFrom b (pointPlace b 20 estimate) 16 1

end Offside.Number
