import Offside.Evaluator
import Offside.Library

/-!
Interpreters. An interpreter has a scope of its own with every builtin in it, and runs programs one
after another in that scope or in one of its host; the trace file is opened anew with the
interpreter and closed at the end of every run.
-/

namespace Offside

namespace Interpreter

def defaultDepth : Int := 200

/-- More steps than any run takes. -/
def plenty : Nat := 2 ^ 62

/-- Binds every global builtin whose name the outermost scope around `s` leaves free. -/
def installBuiltins (registry : Registry) (s : Nat) (scopes : Scopes) : Scopes :=
  let root := scopes.outermost s
  registry.globalNames.foldl
    (fun scopes (name : String) =>
      if (scopes.scope root).binds name then scopes else scopes.define root name (.native name))
    scopes

def ownScope : Nat := 0

def newScopes (registry : Registry) : Scopes := installBuiltins registry ownScope .root

def startTrace (w : World) : Except Fault (Trace × World) :=
  match w.disk.openToWrite traceFile with
  | .ok (file, disk) => .ok (⟨file, some 0⟩, { w with disk := disk.setInode file (.file .empty) })
  | .error e => .error (.system e (some traceFile))

def start (set : Settings) (w : World) : Except Fault State :=
  let scopes := newScopes set.registry
  if set.traceLevel = 0 then .ok ⟨w, scopes, #[], 0, none⟩
  else match startTrace w with
    | .ok (trace, w) => .ok ⟨w, scopes, #[], 0, some trace⟩
    | .error f => .error f

/-- The statements of a program. A tree from a document may be any node that has some. -/
def statementsOf : Node → Except Fault (List Node)
  | .program _ body | .whileStmt _ _ body | .forStmt _ _ _ body | .functionDef _ _ _ body =>
    .ok body
  | .lambda _ _ body => .error (.notIterable body.kindName)
  | node => .error (.missingPart node.kindName "body")

def execute (set : Settings) (fuel : Nat) (program : Node) (s : Nat) : Run Unit :=
  match statementsOf program with
  | .ok body => do
    let _ ← Evaluator.runBlock (Evaluator.execute set fuel · s) body
    return ()
  | .error f => Run.fault f

def closeTrace (s : State) : State := { s with trace := none }

/-- Does something and closes the trace file, however it ends. -/
def closing {α : Type} (act : Run α) : Run α := fun s =>
  match act s with
  | .ok a s => .ok a (closeTrace s)
  | .error e s => .error e (closeTrace s)

/-- Stack frames set aside for one call of a function. -/
def framesPerCall : Int := 30

/-- Stack frames set aside for a run that calls functions `maxDepth` deep. -/
def framesFor (maxDepth : Int) : Int := maxDepth * framesPerCall + 1000

/-- The most frames that can be set aside. -/
def mostFrames : Int := 2 ^ 31 - 1

/-- Runs a program in a scope; one of the host gets the builtins first. A run that needs more
frames than there can be does not begin, and leaves the trace file open. -/
def run (set : Settings) (fuel : Nat) (program : Node) (s : Nat) : Run Unit := do
  if s ≠ ownScope then
    modify fun st => { st with scopes := installBuiltins set.registry s st.scopes }
  if mostFrames < framesFor set.maxDepth then Run.fault .depthBeyondWord
  closing (execute set fuel program s)

end Interpreter

end Offside
