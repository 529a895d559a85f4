/-!
Positions in a source text: lines and columns count from one, columns in characters.
-/

namespace Offside

structure Position where
  line : Int
  column : Int
  deriving DecidableEq, Repr, Inhabited

namespace Position

def start : Position := ⟨1, 1⟩

/-- The position after one character. -/
def next (p : Position) (c : Char) : Position :=
  if c = '\n' then ⟨p.line + 1, 1⟩ else ⟨p.line, p.column + 1⟩

def after (p : Position) (cs : List Char) : Position := cs.foldl next p

def text (p : Position) : String := toString p.line ++ ":" ++ toString p.column

end Position

end Offside
