import Offside.Heap

/-!
Equality of values. Values of different kinds differ; Lists and Mappings are compared by what
they hold. A pair of containers met again while it is under comparison, or after it, is taken as
equal, so values that contain themselves are compared in finitely many steps.
-/

namespace Offside

/-- Pairs of Lists and of Mappings already met. -/
structure Met where
  lists : List (Nat × Nat)
  mappings : List (Nat × Nat)

namespace Heap

abbrev Comparison := Value → Value → Met → Bool × Met

/-- Compares items pairwise up to the first difference. -/
def equalItems (equal : Comparison) : List Value → List Value → Met → Bool × Met
  | a :: as, b :: bs, met =>
    match equal a b met with
    | (true, met) => equalItems equal as bs met
    | answer => answer
  | _, _, met => (true, met)

/-- Compares each entry with the entry of the same key in `other`. -/
def equalEntries (equal : Comparison) (other : Mapping) :
    List (Value × Value) → Met → Bool × Met
  | [], met => (true, met)
  | (key, a) :: rest, met =>
    match other.get? key with
    | none => (false, met)
    | some b =>
      match equal a b met with
      | (true, met) => equalEntries equal other rest met
      | answer => answer

/-- Equality of values with at most `fuel` containers around them. -/
def equalWithin (h : Heap) : Nat → Value → Value → Met → Bool × Met
  | 0, _, _, met => (true, met)
  | fuel + 1, .list a, .list b, met =>
    if a = b ∨ met.lists.contains (a, b) then (true, met)
    else
      let met := { met with lists := (a, b) :: met.lists }
      if (h.list a).size = (h.list b).size then
        equalItems (equalWithin h fuel) (h.list a).toList (h.list b).toList met
      else (false, met)
  | fuel + 1, .mapping a, .mapping b, met =>
    if a = b ∨ met.mappings.contains (a, b) then (true, met)
    else
      let met := { met with mappings := (a, b) :: met.mappings }
      if (h.mapping a).size = (h.mapping b).size then
        equalEntries (equalWithin h fuel) (h.mapping b) (h.mapping a).entries met
      else (false, met)
  | _ + 1, a, b, met => (a.identical b, met)

/-- Equality of values. A descent into a container adds a pair, of which there are finitely many. -/
def equal (h : Heap) (a b : Value) : Bool :=
  (h.equalWithin (h.lists.size ^ 2 + h.mappings.size ^ 2 + 1) a b ⟨[], []⟩).1

/-- The position of the first item equal to `value`. -/
def position? (h : Heap) (items : List Value) (value : Value) : Option Nat :=
  items.findIdx? fun item => h.equal item value

end Heap

end Offside
