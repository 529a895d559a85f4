import Mathlib.Tactic
import Offside.Csv

/-!
Comma-separated values that were written are read. The writer sets quotes around a field for the
delimiter, a quote or a line break in it; any other field has nothing in it at which the reader
would end it, and inside quotes the reader ends a field at a single quote only.
-/

namespace Offside.Csv

variable {quoting : Quoting} {delimiter : Char} {d d' : Draft} {f g : List Char}
  {fs : List (List Char)} {n : Nat}

/-! ### Reading character by character -/

/-- The records of whole lines that follow what made the draft `d`. -/
def scan (delimiter : Char) (d : Draft) : List Char → Except Defect (List (List String))
  | [] => .ok (if d.place = .quoted then [(d.endField .recordStart).record] else [])
  | c :: rest => do
    let d ← d.step delimiter c
    if c = '\n' then
      if d.endLine.place = .recordStart then
        return d.endLine.record :: (← scan delimiter .empty rest)
      else scan delimiter d.endLine rest
    else scan delimiter d rest

/-- A draft at the start of a field, `first` if of its record. -/
def opening (first : Bool) (fs : List (List Char)) : Draft :=
  ⟨if first then .recordStart else .fieldStart, [], 0, fs⟩

/-- A draft whose field is complete if a delimiter or the end of a line comes next. -/
structure Complete (d : Draft) (f : List Char) (fs : List (List Char)) : Prop where
  field : d.field = f.reverse
  fields : d.fields = fs
  place : d.place ∉ [.quoted, .lineBreak]

/-- A field whose line breaks the writer puts in quotes. -/
def Quoting.Covers (quoting : Quoting) (f : List Char) : Prop :=
  quoting = .lineBreaks ∨ '\r' ∉ f

theorem Quoting.Covers.asks (h : quoting.Covers f) {c : Char} (hc : c ∈ f) :
    quoting.asks c = Draft.isLineBreak c := by
  rcases h with rfl | hreturn
  · rfl
  · have hne : c ≠ '\r' := fun h => hreturn (h ▸ hc)
    cases quoting with
    | lineBreaks => rfl
    | lineEnds => simp [Quoting.asks, Draft.isLineBreak, hne]

/-- A writer that quotes only the ends of its lines leaves a carriage return bare, which is refused.
-/
example : parse ',' (write .lineEnds ',' [["a\rb"]]) = .error .lineBreak := by decide

end Offside.Csv
