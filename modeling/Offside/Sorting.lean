import Offside.Sorting.Merge

/-!
Stable sorting with a comparison that may refuse. The list is cut into ascending runs from left to
right, and neighbouring runs are merged in an order close to that of a balanced tree: each boundary
between two runs has a depth in such a tree, and deeper boundaries are merged away first.

In a list whose order is total, the result is the one stable ascending arrangement. In another
list it depends on which elements are compared, and so does the pair that is refused first and how
the elements stand then.
-/

namespace Offside.Sorting

variable {α ε : Type}

/-- A run that waits for those to the right of it, with the depth of the boundary behind it. -/
structure Waiting (α : Type) where
  run : List α
  size : Nat
  depth : Nat

/-- The depth of a boundary in a list of `n` elements. It is the first place at which the middles
of the two runs, as binary fractions of the list, differ; `start` is where the left run starts. -/
def boundaryDepth (n start left right : Nat) : Nat :=
  let middle := 2 * start + left
  let next := middle + left + right
  let differ (k : Nat) := middle * Nat.pow 2 k / n != next * Nat.pow 2 k / n
  ((List.range (n.log2 + 1)).find? differ).getD 0

/-- The elements of the runs that wait, the latest of which comes first, as they stand. -/
def lineUp (waiting : List (Waiting α)) : List α := waiting.reverse.flatMap (·.run)

/-- Merges the current run with those waiting behind a boundary deeper than `depth`. -/
def settle (less : Less α ε) (depth threshold : Nat) (run : List α) (size : Nat) :
    List (Waiting α) → Except (Stopped α ε) (Nat × List (Waiting α))
  | [] => .ok (threshold, [⟨run, size, depth⟩])
  | w :: rest =>
    if depth < w.depth then do
      let (threshold, run) ← amid (lineUp rest ++ ·) (merge less threshold w.run run)
      settle less depth threshold run (w.size + size) rest
    else .ok (threshold, ⟨run, size, depth⟩ :: w :: rest)

/-- Merges the current run with all that wait. A run that is shorter than the current one goes
with its left neighbour first. -/
def collapse (less : Less α ε) (threshold : Nat) (run : List α) (size : Nat) :
    List (Waiting α) → Except (Stopped α ε) (List α)
  | [] => .ok run
  | [w] => do return (← merge less threshold w.run run).2
  | w :: v :: rest => do
    if v.size < size then
      let (threshold, left) ← amid (lineUp rest ++ · ++ run) (merge less threshold v.run w.run)
      collapse less threshold run size (⟨left, v.size + w.size, v.depth⟩ :: rest)
    else
      let (threshold, run) ← amid (lineUp (v :: rest) ++ ·) (merge less threshold w.run run)
      collapse less threshold run (w.size + size) (v :: rest)
  termination_by waiting => waiting.length

/-- Cuts the rest of a list of `n` elements into runs and merges them; `run` is the current one,
and starts at `start`. -/
def sortRuns (less : Less α ε) (n : Nat) :
    Nat → Nat → Nat → List α → List (Waiting α) → List α → Except (Stopped α ε) (List α)
  | fuel + 1, threshold, start, run, waiting, x :: xs => do
    let (next, rest) ← amid ((lineUp waiting ++ run) ++ ·)
      (takeRun less (leastLength n) (x :: xs))
    let depth := boundaryDepth n start run.length next.length
    let (threshold, waiting) ← amid (· ++ (next ++ rest))
      (settle less depth threshold run run.length waiting)
    sortRuns less n fuel threshold (start + run.length) next waiting rest
  | _, threshold, _, run, waiting, _ => collapse less threshold run run.length waiting

def sort (less : Less α ε) (xs : List α) : Except (Stopped α ε) (List α) := do
  let n := xs.length
  let (run, rest) ← takeRun less (leastLength n) xs
  sortRuns less n n worthwhile 0 run [] rest

end Offside.Sorting
