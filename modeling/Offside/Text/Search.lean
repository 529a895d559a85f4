import Offside.Text.Blank

/-!
Searching, splitting and joining of texts as lists of characters. Occurrences are counted from
the left and do not overlap.
-/

namespace Offside.Text

/-- The position of the first occurrence of `pattern`. -/
def find? (pattern : List Char) : List Char → Option Nat
  | [] => if pattern.isEmpty then some 0 else none
  | c :: rest =>
    if pattern.isPrefixOf (c :: rest) then some 0 else (find? pattern rest).map (· + 1)

def contains (pattern text : List Char) : Bool := (find? pattern text).isSome

/-- Pieces between separators; `piece` is the current one reversed and `skip` counts the
characters of a separator still to be passed. -/
def splitFrom (separator piece : List Char) (skip : Nat) : List Char → List (List Char)
  | [] => [piece.reverse]
  | c :: rest =>
    match skip with
    | k + 1 => splitFrom separator piece k rest
    | 0 =>
      if separator.isPrefixOf (c :: rest) then
        piece.reverse :: splitFrom separator [] (separator.length - 1) rest
      else splitFrom separator (c :: piece) 0 rest

/-- Pieces between the occurrences of a non-empty separator. -/
def splitOn (separator text : List Char) : List (List Char) := splitFrom separator [] 0 text

/-- Number of occurrences; the empty pattern occurs around every character. -/
def count (pattern text : List Char) : Nat :=
  if pattern.isEmpty then text.length + 1 else (splitOn pattern text).length - 1

def joinWith (separator : List Char) (pieces : List (List Char)) : List Char :=
  separator.intercalate pieces

def replace (old new text : List Char) : List Char :=
  if old.isEmpty then new ++ text.flatMap fun c => c :: new
  else joinWith new (splitOn old text)

/-- Maximal runs of characters that are not blank; `word` is the current run reversed. -/
def wordsFrom (word : List Char) : List Char → List (List Char)
  | [] => if word.isEmpty then [] else [word.reverse]
  | c :: rest =>
    if isBlank c then
      if word.isEmpty then wordsFrom [] rest else word.reverse :: wordsFrom [] rest
    else wordsFrom (c :: word) rest

def words (text : List Char) : List (List Char) := wordsFrom [] text

end Offside.Text
