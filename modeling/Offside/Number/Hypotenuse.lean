import Offside.Number.Binary64

/-!
The length of the hypotenuse. Both sides are scaled by a power of two, and their squares are added
exactly: each square is cut into three parts, and a running total records what it rounds away. The
root of the total is then corrected by one step of Newton's method.
-/

namespace Offside.Number

/-- The exponent of the power of two next above `|x|`, for a finite `x` that is not zero. -/
def binaryExponent (x : Float) : Int :=
  match decode x with
  | .finite _ m q => bitLength m + q
  | _ => 0

def powerOfTwo (e : Int) : Float :=
  if 0 ≤ e then nearestOrInfinity false (Nat.pow 2 e.toNat) 1
  else nearestOrInfinity false 1 (Nat.pow 2 (-e).toNat)

/-- A number as the sum of two with half as many significant bits. -/
def halves (x : Float) : Float × Float :=
  let t := x * 134217729
  let high := t - (t - x)
  (high, x - high)

/-- A sum: the running total, which starts at one, what adding the large and the middle parts of
squares to it rounded away, and the small parts. -/
structure SquareSum where
  total : Float
  large : Float
  middle : Float
  small : Float

namespace SquareSum

def empty : SquareSum := ⟨1, 0, 0, 0⟩

def addLarge (s : SquareSum) (x : Float) : SquareSum :=
  let total := s.total + x
  { s with total := total, large := s.large + ((s.total - total) + x) }

def addMiddle (s : SquareSum) (x : Float) : SquareSum :=
  let total := s.total + x
  { s with total := total, middle := s.middle + ((s.total - total) + x) }

def addLast (s : SquareSum) (x : Float) : SquareSum :=
  let total := s.total + x
  { s with total := total, small := s.small + ((s.total - total) + x) }

def addSquare (s : SquareSum) (x : Float) : SquareSum :=
  let (high, low) := halves x
  let s := (s.addLarge (high * high)).addMiddle (2 * high * low)
  { s with small := s.small + low * low }

def subtractSquare (s : SquareSum) (x : Float) : SquareSum :=
  let (high, low) := halves x
  ((s.addLarge (-high * high)).addMiddle (-2 * high * low)).addLast (-low * low)

def value (s : SquareSum) : Float := s.total - 1 + (s.large + s.middle + s.small)

end SquareSum

/-- The root of the sum of two squares, the larger number being from one half to one. -/
def scaledHypotenuse (x y : Float) : Float :=
  let sum := (SquareSum.empty.addSquare x).addSquare y
  let root := sum.value.sqrt
  root + (sum.subtractSquare root).value / (2 * root)

/-- The length of the hypotenuse over the given sides. If no power of two brings the larger side
near one, the sides are divided by it. -/
def hypotenuse (x y : Float) : Float :=
  let x := x.abs
  let y := y.abs
  if isInfinite x || isInfinite y then infinity false
  else if isNaN x || isNaN y then notANumber
  else
    let longer := if x < y then y else x
    let e := binaryExponent longer
    if longer == 0 then longer
    else if -1023 ≤ e then
      let scale := powerOfTwo (-e)
      scaledHypotenuse (x * scale) (y * scale) / scale
    else
      let a := x / longer
      let b := y / longer
      longer * ((SquareSum.empty.addLarge (a * a)).addLarge (b * b)).value.sqrt

end Offside.Number
