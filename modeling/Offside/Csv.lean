import Offside.Text.Search

/-!
Comma-separated values. A field may stand in double quotes, inside which a quote is written twice
and delimiters and line breaks are text. Reading goes line by line; a quoted field may span lines.
-/

namespace Offside.Csv

inductive Defect where
  | lineBreak
  | fieldTooLong
  deriving DecidableEq, Repr

def longestField : Nat := 131072

inductive Place where
  | recordStart
  | fieldStart
  | plain
  | quoted
  | quoteInQuoted
  | lineBreak
  deriving DecidableEq, Repr

/-- A record under construction: the characters of the current field, last one first, and the
fields before it, last one first. -/
structure Draft where
  place : Place
  field : List Char
  length : Nat
  fields : List (List Char)
  deriving DecidableEq, Repr

namespace Draft

def empty : Draft := ⟨.recordStart, [], 0, []⟩

def endField (d : Draft) (place : Place) : Draft :=
  ⟨place, [], 0, d.field.reverse :: d.fields⟩

def add (d : Draft) (c : Char) (place : Place) : Except Defect Draft :=
  if longestField ≤ d.length then .error .fieldTooLong
  else .ok { d with place, field := c :: d.field, length := d.length + 1 }

def isLineBreak (c : Char) : Bool := c == '\n' || c == '\r'

def stepFieldStart (delimiter : Char) (d : Draft) (c : Char) : Except Defect Draft :=
  if isLineBreak c then .ok (d.endField .lineBreak)
  else if c = '"' then .ok { d with place := .quoted }
  else if c = delimiter then .ok (d.endField .fieldStart)
  else d.add c .plain

def step (delimiter : Char) (d : Draft) (c : Char) : Except Defect Draft :=
  match d.place with
  | .recordStart =>
    if isLineBreak c then .ok { d with place := .lineBreak } else d.stepFieldStart delimiter c
  | .fieldStart => d.stepFieldStart delimiter c
  | .plain =>
    if isLineBreak c then .ok (d.endField .lineBreak)
    else if c = delimiter then .ok (d.endField .fieldStart)
    else d.add c .plain
  | .quoted => if c = '"' then .ok { d with place := .quoteInQuoted } else d.add c .quoted
  | .quoteInQuoted =>
    if c = '"' then d.add c .quoted
    else if c = delimiter then .ok (d.endField .fieldStart)
    else if isLineBreak c then .ok (d.endField .lineBreak)
    else d.add c .plain
  | .lineBreak => if isLineBreak c then .ok d else .error .lineBreak

/-- The end of a line ends the record, unless it stands inside quotes. -/
def endLine (d : Draft) : Draft :=
  match d.place with
  | .recordStart | .quoted => d
  | .lineBreak => { d with place := .recordStart }
  | .fieldStart | .plain | .quoteInQuoted => d.endField .recordStart

def record (d : Draft) : List String := d.fields.reverse.map String.ofList

end Draft

/-- Lines with their line feeds; `line` is the current one reversed. -/
def linesFrom (line : List Char) : List Char → List (List Char)
  | [] => if line.isEmpty then [] else [line.reverse]
  | c :: rest =>
    if c = '\n' then (c :: line).reverse :: linesFrom [] rest else linesFrom (c :: line) rest

def lines (text : List Char) : List (List Char) := linesFrom [] text

/-- The records of a list of lines, an empty line being an empty record. -/
def records (delimiter : Char) (d : Draft) : List (List Char) → Except Defect (List (List String))
  | [] => .ok (if d.place = .quoted then [(d.endField .recordStart).record] else [])
  | line :: rest => do
    let d := (← line.foldlM (Draft.step delimiter) d).endLine
    if d.place = .recordStart then return d.record :: (← records delimiter .empty rest)
    else records delimiter d rest

/-- Reads all records that are not empty. -/
def parse (delimiter : Char) (text : String) : Except Defect (List (List String)) := do
  return (← records delimiter .empty (lines text.toList)).filter (!·.isEmpty)

/-- Which line breaks a writer puts in quotes: every one, or only the one that ends its lines. The
releases of the host differ. -/
inductive Quoting where
  | lineBreaks
  | lineEnds
  deriving DecidableEq, Repr, Inhabited

def Quoting.asks (quoting : Quoting) (c : Char) : Bool :=
  match quoting with
  | lineBreaks => Draft.isLineBreak c
  | lineEnds => c == '\n'

/-- Whether a field has to stand in quotes. -/
def needsQuotes (quoting : Quoting) (delimiter : Char) (field : List Char) : Bool :=
  field.any fun c => c == delimiter || c == '"' || quoting.asks c

def quote (field : List Char) : List Char :=
  '"' :: field.flatMap (fun c => if c = '"' then ['"', '"'] else [c]) ++ ['"']

def writeField (quoting : Quoting) (delimiter : Char) (field : List Char) : List Char :=
  if needsQuotes quoting delimiter field then quote field else field

/-- Writes a record. A single empty field is quoted, lest it be read as no field. -/
def writeRecord (quoting : Quoting) (delimiter : Char) (fields : List String) : List Char :=
  let body := match fields with
    | [""] => quote []
    | _ => Text.joinWith [delimiter] (fields.map fun f => writeField quoting delimiter f.toList)
  body ++ ['\n']

def write (quoting : Quoting) (delimiter : Char) (records : List (List String)) : String :=
  String.ofList (records.flatMap (writeRecord quoting delimiter))

end Offside.Csv
