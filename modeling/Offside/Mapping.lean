import Offside.Value

/-!
Mappings: finite maps that keep the order in which their keys were first set. Setting a key that
is present replaces the stored key and its value and keeps its place.
-/

namespace Offside

structure Mapping where
  entries : List (Value × Value)
  deriving Inhabited

namespace Mapping

def empty : Mapping := ⟨[]⟩

def size (m : Mapping) : Nat := m.entries.length

def find? (m : Mapping) (key : Value) : Option (Value × Value) :=
  m.entries.find? fun e => key.sameKey e.1

def contains (m : Mapping) (key : Value) : Bool := (m.find? key).isSome

def get? (m : Mapping) (key : Value) : Option Value := (m.find? key).map (·.2)

def replaceIn (key value : Value) : List (Value × Value) → List (Value × Value)
  | [] => []
  | e :: rest => if key.sameKey e.1 then (key, value) :: rest else e :: replaceIn key value rest

def set (m : Mapping) (key value : Value) : Mapping :=
  if m.contains key then ⟨replaceIn key value m.entries⟩ else ⟨m.entries ++ [(key, value)]⟩

def erase (m : Mapping) (key : Value) : Mapping :=
  ⟨m.entries.eraseP fun e => key.sameKey e.1⟩

def keys (m : Mapping) : List Value := m.entries.map (·.1)

def values (m : Mapping) : List Value := m.entries.map (·.2)

def setAll (m : Mapping) (entries : List (Value × Value)) : Mapping :=
  entries.foldl (fun m e => m.set e.1 e.2) m

def ofEntries (entries : List (Value × Value)) : Mapping := empty.setAll entries

end Mapping

end Offside
