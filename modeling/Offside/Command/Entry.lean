import Offside.World
import Offside.Token

/-!
Entries of an interactive session. An entry is a line, or several lines where the first opens a
block or a bracket; an entry of several lines ends with a blank one.
-/

namespace Offside.Command

def opensBlock (line : String) : Bool := (Text.trimRight line.toList).getLast? == some ':'

/-- Brackets opened less brackets closed. -/
def bracketDepth (cs : List Char) : Int :=
  cs.countP (openBrackets.contains ·) - cs.countP (closeBrackets.contains ·)

def isBlankLine (line : String) : Bool := line.toList.all Text.isBlank

def isComplete (lines : List String) : Bool :=
  match lines.getLast? with
  | none => true
  | some last =>
    !opensBlock last && (lines.length ≤ 1 || isBlankLine last) &&
      bracketDepth (lines.flatMap String.toList) ≤ 0

def firstPrompt : String := ">>> "

def nextPrompt : String := "... "

/-- Reads further lines up to a whole entry; none if the input ends first. A line takes a unit of
fuel. -/
def readLines : Nat → List String → World → Option (List String) × World
  | 0, lines, w => (some lines, w)
  | fuel + 1, lines, w =>
    if !lines.isEmpty && isComplete lines then (some lines, w)
    else
      match (w.print (if lines.isEmpty then firstPrompt else nextPrompt)).readLine with
      | (some line, w) => readLines fuel (lines ++ [line]) w
      | (none, w) => (none, w)

def readEntry (w : World) : Option String × World :=
  let (lines, w) := readLines (w.input.length + 2) [] w
  (lines.map "\n".intercalate, w)

end Offside.Command
