import Offside.Operation

/-!
Access to the items of containers. An index counts from the front, or from the back when it is
negative, and denotes the same position for reading, writing and deleting.
-/

namespace Offside.Operation

/-- The position an index denotes in a sequence of that length. -/
def position (sequence : String) (length : Nat) : Value → Result Nat
  | .integer i =>
    let p := if i < 0 then i + length else i
    if 0 ≤ p ∧ p < length then .ok p.toNat else refuse (.indexOutOfRange sequence i)
  | v => refuse (.indexKind sequence v.kind)

def getItem (h : Heap) (target index : Value) : Result Value :=
  match target with
  | .list id => do
    let items := h.list id
    return items[← position "List" items.size index]?.getD .none
  | .string s => do
    let cs := s.toList
    return match cs[← position "String" cs.length index]? with
      | some c => .string (String.singleton c)
      | none => .none
  | .mapping id => do
    checkKey index
    match (h.mapping id).get? index with
    | some v => return v
    | none => refuse (.keyNotFound index.atomText)
  | _ => refuse (.notIndexable target.kind)

abbrev Edit := Heap → Heap

/-- The change that puts a value at an index or a key. -/
def itemSetting (h : Heap) (target index value : Value) : Result Edit :=
  match target with
  | .list id => do
    let p ← position "List" (h.list id).size index
    return fun h => h.modifyList id (·.setIfInBounds p value)
  | .mapping id => do
    checkKey index
    return fun h => h.modifyMapping id (·.set index value)
  | _ => refuse (.noItemAssignment target.kind)

/-- The change that takes away what is at an index or a key. -/
def itemDeletion (h : Heap) (target index : Value) : Result Edit :=
  match target with
  | .list id => do
    let p ← position "List" (h.list id).size index
    return fun h => h.modifyList id (·.eraseIdxIfInBounds p)
  | .mapping id => do
    checkKey index
    if (h.mapping id).contains index then return fun h => h.modifyMapping id (·.erase index)
    else refuse (.keyNotFound index.atomText)
  | _ => refuse (.noItemDeletion target.kind)

def setItem (h : Heap) (target index value : Value) : Result Heap := do
  return (← itemSetting h target index value) h

def deleteItem (h : Heap) (target index : Value) : Result Heap := do
  return (← itemDeletion h target index) h

/-- What a loop visits: the items of a List, the keys of a Mapping, the characters of a String. -/
def iterationItems (h : Heap) : Value → Result (List Value)
  | .list id => .ok (h.list id).toList
  | .mapping id => .ok (h.mapping id).keys
  | .string s => .ok (s.toList.map fun c => .string (String.singleton c))
  | v => refuse (.notIterable v.kind)

end Offside.Operation
