/-!
Ascending runs. The leading run of a list is taken as it is, or turned round if it descends
strictly; a run that is too short is made longer by putting the next elements in their places,
behind their equals. A comparison may refuse, and then there is no result, but the elements that
have been moved by then stay where they are.
-/

namespace Offside.Sorting

variable {α β ε : Type}

/-- Whether the first element is less than the second. -/
abbrev Less (α ε : Type) := α → α → Except ε Bool

/-- What a comparison refused with, and the elements as they stood then. -/
structure Stopped (α ε : Type) where
  cause : ε
  items : List α

/-- A search among elements that stand so. -/
def halting (items : List α) : Except ε β → Except (Stopped α ε) β :=
  Except.mapError fun cause => ⟨cause, items⟩

/-- Work on a part of the elements; `whole` puts the part among the others. -/
def amid (whole : List α → List α) : Except (Stopped α ε) β → Except (Stopped α ε) β :=
  Except.mapError fun stop => { stop with items := whole stop.items }

/-- Elements up to the first that is less than the one before it; `run` holds those already passed,
last one first. -/
def ascend (less : Less α ε) (last : α) (run : List α) : List α → Except ε (List α × List α)
  | [] => .ok (run.reverse, [])
  | x :: rest => do
    if ← less x last then return (run.reverse, x :: rest)
    else ascend less x (x :: run) rest

/-- Elements up to the first that is not less than the one before it, turned round. -/
def descend (less : Less α ε) (last : α) (run : List α) : List α → Except ε (List α × List α)
  | [] => .ok (run, [])
  | x :: rest => do
    if ← less x last then descend less x (x :: run) rest
    else return (run, x :: rest)

/-- The leading run in ascending order, and the rest of the list. -/
def leadingRun (less : Less α ε) : List α → Except ε (List α × List α)
  | x :: y :: rest => do
    if ← less y x then descend less y [y, x] rest else ascend less y [y, x] rest
  | xs => .ok (xs, [])

/-- Which of two middle places is tried when a range has an even number of them. -/
inductive Middle where
  | upper
  | lower

def Middle.of : Middle → Nat → Nat → Nat
  | .upper, low, high => low + (high - low) / 2
  | .lower, low, high => high - 1 - (high - low) / 2

/-- The place from `low` to `high` up to which the elements pass, found by halving the range. -/
def halve (middle : Middle) (passes : α → Except ε Bool) (xs : List α) :
    Nat → Nat → Nat → Except ε Nat
  | 0, low, _ => .ok low
  | fuel + 1, low, high =>
    if low < high then do
      let place := middle.of low high
      match xs[place]? with
      | none => return low
      | some x =>
        if ← passes x then halve middle passes xs fuel (place + 1) high
        else halve middle passes xs fuel low place
    else .ok low

/-- Puts an element into a run, behind those that are not greater. -/
def insert (less : Less α ε) (run : List α) (x : α) : Except ε (List α) := do
  let place ← halve .upper (fun y => not <$> less x y) run run.length 0 run.length
  return run.insertIdx place x

/-- Puts elements into a run, one after the other. -/
def insertAll (less : Less α ε) (run : List α) : List α → Except (Stopped α ε) (List α)
  | [] => .ok run
  | x :: xs => do
    let run ← halting (run ++ x :: xs) (insert less run x)
    insertAll less run xs

/-- The leading run, made longer by the next elements if it has fewer than `least`, and the rest. -/
def takeRun (less : Less α ε) (least : Nat) (xs : List α) :
    Except (Stopped α ε) (List α × List α) := do
  let (run, rest) ← halting xs (leadingRun less xs)
  let missing := least - run.length
  let run ← amid (· ++ rest.drop missing) (insertAll less run (rest.take missing))
  return (run, rest.drop missing)

/-- The least length of a run in a list of `n` elements: all of a short list, else 32 to 64 of
them, so that the number of runs is a power of two or a little less. -/
def leastLength (n : Nat) : Nat :=
  let unit := Nat.pow 2 (n.log2 - 5)
  (n + unit - 1) / unit

end Offside.Sorting
