import Offside.Csv
import Offside.Heap
import Offside.Disk.Operation

/-!
What a program can change besides its own variables: the heap, the console, the file system and
the environment variables.
-/

namespace Offside

structure World where
  heap : Heap
  /-- What is left of the standard input. -/
  input : List Char
  output : String
  errors : String
  disk : Disk
  environment : List (String × String)
  /-- What was printed when the input was first found at its end. -/
  exhausted : Option (String × String) := none
  /-- How the host writes tables. -/
  quoting : Csv.Quoting := .lineEnds
  deriving Inhabited

namespace World

def newList (w : World) (items : Array Value) : Value × World :=
  let (v, heap) := w.heap.newList items
  (v, { w with heap })

def newMapping (w : World) (m : Mapping) : Value × World :=
  let (v, heap) := w.heap.newMapping m
  (v, { w with heap })

def print (w : World) (text : String) : World := { w with output := w.output ++ text }

def printError (w : World) (text : String) : World := { w with errors := w.errors ++ text }

/-- The next line of the input without its line feed; none at the end. -/
def readLine (w : World) : Option String × World :=
  if w.input.isEmpty then
    (none, { w with exhausted := w.exhausted.or (some (w.output, w.errors)) })
  else
    let line := w.input.takeWhile (· != '\n')
    (some (String.ofList line), { w with input := w.input.drop (line.length + 1) })

def getVariable (w : World) (name : String) : Option String :=
  (w.environment.find? (·.1 == name)).map (·.2)

def setVariable (w : World) (name value : String) : World :=
  { w with environment := (w.environment.filter (·.1 != name)) ++ [(name, value)] }

def unsetVariable (w : World) (name : String) : World :=
  { w with environment := w.environment.filter (·.1 != name) }

end World

end Offside
