import Offside.Builtin.Failure
import Offside.World
import Offside.Heap.Display
import Offside.Operation.Item

/-!
Builtin functions and the registries that hold them. A builtin takes a list of values and acts on
the world; it checks the number of its arguments first. A name with a dot is a method, reached
through a value; the others are global names.
-/

namespace Offside

inductive Refusal where
  | failure (f : Failure)
  | fault (f : Fault)
  deriving DecidableEq, Repr

abbrev Action := EStateM Refusal World

namespace Action

def fail {α : Type} (f : Failure) : Action α := throw (.failure f)

def fault {α : Type} (f : Fault) : Action α := throw (.fault f)

/-- Passes an operation on, its error as a failure of the builtin. -/
def ofOperation {α : Type} : Except Trouble α → Action α
  | .ok a => pure a
  | .error (.cause c) => fail (.operation c)
  | .error (.fault f) => fault f

def heap : Action Heap := do return (← get).heap

def modifyHeap (f : Heap → Heap) : Action Unit :=
  modify fun w => { w with heap := f w.heap }

def newList (items : List Value) : Action Value :=
  modifyGet fun w => w.newList items.toArray

def newMapping (m : Mapping) : Action Value := modifyGet fun w => w.newMapping m

def display (v : Value) : Action String := do return (← heap).display v

def items (id : Nat) : Action (List Value) := do return ((← heap).list id).toList

def mapping (id : Nat) : Action Mapping := do return (← heap).mapping id

def wrongKind {α : Type} (builtin what wanted : String) (v : Value) : Action α :=
  fail (.wrongKind builtin what wanted v.kind)

def integer (builtin what : String) : Value → Action Int
  | .integer n => pure n
  | v => wrongKind builtin what "Integer" v

def boolean (builtin what : String) : Value → Action Bool
  | .boolean b => pure b
  | v => wrongKind builtin what "Boolean" v

def string (builtin what : String) : Value → Action String
  | .string s => pure s
  | v => wrongKind builtin what "String" v

def list (builtin what : String) : Value → Action Nat
  | .list id => pure id
  | v => wrongKind builtin what "List" v

def map (builtin what : String) : Value → Action Nat
  | .mapping id => pure id
  | v => wrongKind builtin what "Mapping" v

def number (builtin what : String) (v : Value) : Action Value :=
  if v.isNumber then pure v else wrongKind builtin what "Number" v

/-- A number as a Float; an Integer beyond any Float is a fault. -/
def toFloat : Value → Action Float
  | .integer n =>
    match Number.ofInt? n with
    | some x => pure x
    | none => fault .integerBeyondFloat
  | .float x => pure x
  | .nan _ => pure Number.notANumber
  | _ => pure 0

/-- Sizes are machine words. -/
def checkIndex (n : Int) : Action Unit :=
  if -(2 ^ 63) ≤ n ∧ n < 2 ^ 63 then pure () else fault .integerBeyondIndex

end Action

/-- A function of the host. `least` is the exact number of arguments, or the smallest one when
`most` is set; none stands for any number. -/
structure Builtin where
  name : String
  least : Option Int
  most : Option Int
  run : List Value → Action Value

namespace Builtin

def arity? (b : Builtin) : Option ArityRange :=
  b.least.map fun least => ⟨least, b.most.getD least⟩

/-- Calls a builtin on arguments of which there must be the right number. -/
def call (b : Builtin) (args : List Value) : Action Value :=
  match b.arity? with
  | none => b.run args
  | some range =>
    if range.has args.length then b.run args else Action.fail (.arity range args.length)

def display (b : Builtin) : String := "<builtin " ++ b.name ++ ">"

end Builtin

/-- Builtins by name, in the order in which their names were first registered. -/
structure Registry where
  builtins : List Builtin

namespace Registry

def empty : Registry := ⟨[]⟩

def find? (r : Registry) (name : String) : Option Builtin :=
  r.builtins.find? (·.name == name)

def contains (r : Registry) (name : String) : Bool := r.builtins.any (·.name == name)

def size (r : Registry) : Nat := r.builtins.length

def names (r : Registry) : List String := r.builtins.map (·.name)

/-- Names that stand for themselves, not for methods. -/
def globalNames (r : Registry) : List String :=
  r.names.filter fun name => !name.toList.contains '.'

/-- Adds a builtin; one of the same name gives way and its place is kept. -/
def register (r : Registry) (b : Builtin) : Registry :=
  if r.contains b.name then
    ⟨r.builtins.map fun old => if old.name == b.name then b else old⟩
  else ⟨r.builtins ++ [b]⟩

def registerAll (r : Registry) (builtins : List Builtin) : Registry :=
  builtins.foldl register r

def update (r other : Registry) : Registry := r.registerAll other.builtins

/-- The builtins of the given names, in the given order. -/
def restrict (r : Registry) (names : List String) : Registry :=
  empty.registerAll (names.filterMap r.find?)

end Registry

end Offside
