import Offside.Builtin
import Offside.Scope

/-!
The state of a running program and the ways in which a run can stop. A run that lacks fuel is told
apart from one that failed. What an operation changed before it failed stays changed.
-/

namespace Offside

/-- The parameters, the body and the defining scope of a function. -/
structure Closure where
  params : List Json
  body : List Node
  scope : Nat
  deriving Inhabited

/-- An open trace file: the next line goes to an offset, or to the end of the file. -/
structure Trace where
  file : Nat
  offset : Option Nat
  deriving DecidableEq, Repr

structure State where
  world : World
  scopes : Scopes
  closures : Array Closure
  /-- Calls of functions under way. -/
  depth : Nat
  trace : Option Trace
  deriving Inhabited

/-- The state in which the body of a call begins. -/
def State.enterCall (st : State) : State := { st with depth := st.depth + 1 }

/-- The state after the body of a call. -/
def State.leaveCall (st : State) : State := { st with depth := st.depth - 1 }

inductive Stop where
  | error (e : RuntimeError)
  | fault (f : Fault)
  | starved

/-- What a run does not change: the builtins, the greatest number of nested calls, and how much is
traced. -/
structure Settings where
  registry : Registry
  maxDepth : Int
  traceLevel : Nat

abbrev Run := EStateM Stop State

namespace Run

def refuse {α : Type} (c : Cause) : Run α := throw (.error { cause := c })

def fault {α : Type} (f : Fault) : Run α := throw (.fault f)

def ofOperation {α : Type} : Except Trouble α → Run α
  | .ok a => pure a
  | .error (.cause c) => refuse c
  | .error (.fault f) => fault f

def heap : Run Heap := do return (← get).world.heap

/-- Gives an error of `act` the place `p` if it has none yet. -/
def located {α : Type} (p : Place) (act : Run α) : Run α := fun s =>
  match act s with
  | .error (.error e) s => .error (.error (e.locate p)) s
  | result => result

/-- Does the body of a call; the depth goes back however that ends. -/
def deeper {α : Type} (act : Run α) : Run α := fun s =>
  match act s.enterCall with
  | .ok a s => .ok a s.leaveCall
  | .error e s => .error e s.leaveCall

def onWorld {α : Type} (refused : Refusal → Stop) (act : Action α) : Run α := fun s =>
  let w := s.world
  let s := { s with world := default }
  match act w with
  | .ok a w => .ok a { s with world := w }
  | .error r w => .error (refused r) { s with world := w }

def modifyHeap (f : Heap → Heap) : Run Unit :=
  modify fun s => { s with world := { s.world with heap := f s.world.heap } }

def newList (items : List Value) : Run Value :=
  modifyGet fun s =>
    let (v, world) := s.world.newList items.toArray
    (v, { s with world })

def newMapping (m : Mapping) : Run Value :=
  modifyGet fun s =>
    let (v, world) := s.world.newMapping m
    (v, { s with world })

/-- Passes on what a computation results in. -/
def newResult (v : Value) : Run Value :=
  modifyGet fun s =>
    let (v, heap) := s.world.heap.newResult v
    (v, { s with world := { s.world with heap } })

/-- Lets no datum pass that cannot be a name. -/
def checkName (name : Json) : Run Unit :=
  if name.isContainer then fault (.unhashable name.typeName) else pure ()

def lookUp (s : Nat) (name : Json) : Run Value := do
  checkName name
  match (← get).scopes.get? s name with
  | some v => return v
  | none => refuse (.undefinedName name.plain)

def define (s : Nat) (name : Json) (v : Value) : Run Unit := do
  checkName name
  modify fun st => { st with scopes := st.scopes.define s name v }

def assign (s : Nat) (name : Json) (v : Value) : Run Unit := do
  checkName name
  modify fun st => { st with scopes := st.scopes.assign s name v }

def child (s : Nat) : Run Nat :=
  modifyGet fun st =>
    let (i, scopes) := st.scopes.child s
    (i, { st with scopes })

def newFunction (name : String) (closure : Closure) : Run Value :=
  modifyGet fun st =>
    (.function st.closures.size name, { st with closures := st.closures.push closure })

end Run

def traceFile : String := "debug.txt"

/-- The trace file, opened at its end unless it is open. -/
def openTrace : Run Trace := do
  match (← get).trace with
  | some t => return t
  | none =>
    match (← get).world.disk.openToWrite traceFile with
    | .ok (file, disk) =>
      modify fun s => { s with world := { s.world with disk }, trace := some ⟨file, none⟩ }
      return ⟨file, none⟩
    | .error e => Run.fault (.system e (some traceFile))

/-- Writes after what the trace holds. -/
def appendTrace (t : Trace) (bytes : ByteArray) : Run Unit :=
  modify fun s =>
    let disk := s.world.disk
    let offset := t.offset.getD (disk.content t.file).size
    { s with
      world := { s.world with disk := disk.writeAt t.file offset bytes }
      trace := some { t with offset := t.offset.map (· + bytes.size) } }

/-- A line with a surrogate in it is not written, and ends the run. -/
def writeTrace (line : String) : Run Unit := do
  let t ← openTrace
  match Text.encodeUtf8 (line ++ "\n") with
  | .ok bytes => appendTrace t bytes
  | .error e => Run.fault (.surrogates e)

/-- Writes a line to the trace if it is detailed enough. -/
def traceAt (set : Settings) (level : Nat) (line : Heap → String) : Run Unit := do
  if level ≤ set.traceLevel then writeTrace (line (← Run.heap))

end Offside
