import Offside.Sorting.Run

/-!
Merging two neighbouring runs. The elements that already have their places are left out first. Of
the rest the shorter side decides the direction: from the front if the left run is not longer,
else from the back. Elements are moved one by one until one side has given as many in a row as the
threshold says; then whole stretches are moved, for as long as they are worth the search.
-/

namespace Offside.Sorting

variable {α ε : Type}

/-- Tries the places 1, 3, 7, … until an element does not pass. The answer is the last place found
to pass and the first one that is known not to. -/
def leap (passes : α → Except ε Bool) (xs : List α) (last next : Nat) : Except ε (Nat × Nat) :=
  if h : next < xs.length then do
    if ← passes xs[next] then leap passes xs next (2 * next + 1) else return (last, next)
  else .ok (last, xs.length)
  termination_by xs.length - next

/-- How many elements pass at the head of a list in which none passes behind one that does not. -/
def gallop (middle : Middle) (passes : α → Except ε Bool) : List α → Except ε Nat
  | [] => .ok 0
  | x :: rest => do
    if ← passes x then
      let (last, next) ← leap passes (x :: rest) 0 1
      halve middle passes (x :: rest) (next - last) (last + 1) next
    else return 0

inductive Side where
  | short
  | long
  deriving DecidableEq

def Side.other : Side → Side
  | .short => .long
  | .long => .short

/-- What is left of both runs, and what has been merged, last one first. -/
structure Merging (α : Type) where
  short : List α
  long : List α
  merged : List α

/-- A direction of merging. From the front the short run is the left one; from the back it is the
right one, and both runs are given last one first. -/
inductive Direction where
  | forward
  | backward

namespace Direction

def middle : Direction → Middle
  | .forward => .upper
  | .backward => .lower

def firstSide : Direction → Side
  | .forward => .short
  | .backward => .long

/-- Whether the next element of the long run is to be moved before that of the short run. Equal
elements stay in their order. -/
def longFirst (d : Direction) (less : Less α ε) (short long : α) : Except ε Bool :=
  match d with
  | .forward => less long short
  | .backward => less short long

end Direction

namespace Merging

/-- The elements as they stand: behind those that are merged what is left of the runs. -/
def items (m : Merging α) : List α := m.merged.reverseAux (m.short ++ m.long)

/-- Moves elements without further comparisons: a run that is left alone, and a single short
element, which belongs behind the long run. -/
def finish (m : Merging α) : List α :=
  match m.short with
  | [x] => m.merged.reverseAux (m.long ++ [x])
  | short => m.merged.reverseAux (short ++ m.long)

def isDecided (m : Merging α) : Bool :=
  match m.short, m.long with
  | _ :: _ :: _, _ :: _ => false
  | _, _ => true

/-- Moves the element that is next, and says from which side it was. -/
def step (d : Direction) (less : Less α ε) (m : Merging α) : Except ε (Side × Merging α) :=
  match m.short, m.long with
  | x :: short, y :: long => do
    if ← d.longFirst less x y then return (.long, ⟨x :: short, long, y :: m.merged⟩)
    else return (.short, ⟨short, y :: long, x :: m.merged⟩)
  | _, _ => .ok (.short, m)

/-- Moves from one side all elements that stand before the next one of the other side, and then
that one. The number is that of the first. -/
def sweep (d : Direction) (less : Less α ε) (side : Side) (m : Merging α) :
    Except ε (Nat × Merging α) :=
  match m.short, m.long with
  | x :: short, y :: long =>
    match side with
    | .short => do
      let n ← gallop d.middle (fun x => not <$> d.longFirst less x y) (x :: short)
      return (n, ⟨(x :: short).drop n, long, y :: ((x :: short).take n).reverseAux m.merged⟩)
    | .long => do
      let n ← gallop d.middle (d.longFirst less x) (y :: long)
      return (n, ⟨short, (y :: long).drop n, x :: ((y :: long).take n).reverseAux m.merged⟩)
  | _, _ => .ok (0, m)

end Merging

/-- How elements are moved: one by one, the last ones in a row from one side, or by stretches. -/
inductive Pace where
  | single (side : Side) (row : Nat)
  | stretches

/-- The length from which a stretch is worth the search, and the threshold to begin with. -/
def worthwhile : Nat := 7

/-- Merges what is left. The threshold falls while stretches are moved and rises when that ends;
each step moves an element, so `fuel` bounds the number of elements. -/
def advance (d : Direction) (less : Less α ε) :
    Nat → Nat → Pace → Merging α → Except (Stopped α ε) (Nat × List α)
  | 0, threshold, _, m => .ok (threshold, m.finish)
  | fuel + 1, threshold, pace, m =>
    if m.isDecided then .ok (threshold, m.finish)
    else match pace with
      | .single side row => do
        let (moved, m) ← halting m.items (m.step d less)
        let row := if moved = side then row + 1 else 1
        advance d less fuel threshold
          (if threshold ≤ row then .stretches else .single moved row) m
      | .stretches => do
        let (first, m) ← halting m.items (m.sweep d less d.firstSide)
        if m.isDecided then return (threshold, m.finish)
        let (second, m) ← halting m.items (m.sweep d less d.firstSide.other)
        if m.isDecided then return (threshold, m.finish)
        if worthwhile ≤ first ∨ worthwhile ≤ second then
          advance d less fuel (max 1 (threshold - 1)) .stretches m
        else advance d less fuel (threshold + 1) (.single .short 0) m

/-- Merges two runs of which the next element is known to be on the long side. -/
def mergeSides (d : Direction) (less : Less α ε) (threshold : Nat) (short long : List α) :
    Except (Stopped α ε) (Nat × List α) :=
  advance d less (short.length + long.length) threshold (.single .short 0)
    ⟨short, long.drop 1, long.take 1⟩

/-- Merges two runs in the direction in which the shorter one leads. -/
def mergeOverlap (less : Less α ε) (threshold : Nat) (left right : List α) :
    Except (Stopped α ε) (Nat × List α) :=
  if left.length ≤ right.length then mergeSides .forward less threshold left right
  else do
    let (threshold, back) ← amid List.reverse
      (mergeSides .backward less threshold right.reverse left.reverse)
    return (threshold, back.reverse)

/-- Merges two runs; also gives the threshold for the next merge. -/
def merge (less : Less α ε) (threshold : Nat) (left right : List α) :
    Except (Stopped α ε) (Nat × List α) :=
  match right.head? with
  | none => .ok (threshold, left)
  | some first => do
    let inPlace ← halting (left ++ right) (gallop .upper (fun x => not <$> less first x) left)
    match (left.drop inPlace).getLast? with
    | none => return (threshold, left ++ right)
    | some last =>
      let back := right.reverse
      let above ← halting (left ++ right) (gallop .lower (fun y => not <$> less y last) back)
      let whole (overlap : List α) := left.take inPlace ++ overlap ++ (back.take above).reverse
      let (threshold, overlap) ← amid whole
        (mergeOverlap less threshold (left.drop inPlace) (back.drop above).reverse)
      return (threshold, whole overlap)

end Offside.Sorting
