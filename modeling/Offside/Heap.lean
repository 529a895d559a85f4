import Offside.Mapping

/-!
The heap of Lists and Mappings. A reference is the number of an object among those of its sort;
objects are only ever added, so a reference stays valid. A number beyond the heap denotes an empty
object. The NaNs that a run makes are numbered too.
-/

namespace Offside

structure Heap where
  lists : Array (Array Value)
  mappings : Array Mapping
  /-- How many NaNs have been made. -/
  made : Nat := 0
  deriving Inhabited

namespace Heap

def empty : Heap := { lists := #[], mappings := #[] }

def list (h : Heap) (id : Nat) : Array Value := h.lists[id]?.getD #[]

def mapping (h : Heap) (id : Nat) : Mapping := h.mappings[id]?.getD .empty

def newList (h : Heap) (items : Array Value) : Value × Heap :=
  (.list h.lists.size, { h with lists := h.lists.push items })

def newMapping (h : Heap) (m : Mapping) : Value × Heap :=
  (.mapping h.mappings.size, { h with mappings := h.mappings.push m })

/-- What a computation results in. A NaN is a new object, whatever it was computed from. -/
def newResult (h : Heap) : Value → Value × Heap
  | .float x =>
    if x.isNaN then (.nan (.made h.made), { h with made := h.made + 1 }) else (.float x, h)
  | v => (v, h)

def modifyList (h : Heap) (id : Nat) (f : Array Value → Array Value) : Heap :=
  { h with lists := h.lists.modify id f }

def modifyMapping (h : Heap) (id : Nat) (f : Mapping → Mapping) : Heap :=
  { h with mappings := h.mappings.modify id f }

/-- Number of objects. -/
def size (h : Heap) : Nat := h.lists.size + h.mappings.size

/-- The truth value of any value: zero and what holds nothing are false. -/
def isTruthy (h : Heap) : Value → Bool
  | .boolean b => b
  | .integer n => n != 0
  | .float x => x != 0
  | .string s => !s.isEmpty
  | .list id => !(h.list id).isEmpty
  | .mapping id => !(h.mapping id).entries.isEmpty
  | .none => false
  | _ => true

end Heap

end Offside
